import CoChange.Proofs.Selector.Condition
import CoChange.Proofs.Selector.Selection

/-!
# Queries are read as they are written

* **`mapM_split_eq_ok`**: reading the parts of a text between separators reads what is joined by
  them.
* **`selector_eq_ok`**, **`nameField_eq_ok`**: a query is read where it is written, and only there.

The quotes are closed within each part of a disjunction (`encloses_all`), so that its own parts are
found as if it stood alone.
-/

namespace CoChange

open Text

namespace QueryParser

variable {cs : List Char}

/-! ## Parts of a text -/

section Joined

variable {ε α : Type} {parse : List Char → Except ε α} {R : α → List Char → Prop} {as : List α}
  {separator : List Char} {mark : Char}

/-- Parts are all parsed exactly if the first of them is and the rest are. -/
theorem mapM_cons_eq_ok {parts : List (List Char)} : (cs :: parts).mapM parse = .ok as ↔
    ∃ a rest, parse cs = .ok a ∧ parts.mapM parse = .ok rest ∧ as = a :: rest := by
  rw [List.mapM_cons]
  cases parse cs with
  | error err => exact ⟨nofun, fun ⟨_, _, h, _⟩ => absurd h nofun⟩
  | ok a =>
    cases parts.mapM parse with
    | error err => exact ⟨nofun, fun ⟨_, _, _, h, _⟩ => absurd h nofun⟩
    | ok rest =>
      constructor
      · intro h
        exact ⟨a, rest, rfl, rfl, (Except.ok.inj h).symm⟩
      · rintro ⟨_, _, ha, hrest, rfl⟩
        rw [Except.ok.inj ha, Except.ok.inj hrest]
        rfl

/-- If all parts of a text are parsed, the text is what the results are joined to. -/
theorem joined_of_mapM (hparse : ∀ a cs, parse cs = .ok a ↔ R a cs) {parts : List (List Char)}
    (hne : parts ≠ [])
    (h : parts.mapM parse = .ok as) : Joined separator R as (separator.intercalate parts) := by
  induction parts generalizing as with
  | nil => exact absurd rfl hne
  | cons cs parts ih =>
    obtain ⟨a, rest, ha, hrest, rfl⟩ := mapM_cons_eq_ok.mp h
    cases parts with
    | nil =>
      obtain rfl := Except.ok.inj hrest
      rw [List.intercalate_singleton]
      exact .single ((hparse a cs).mp ha)
    | cons part parts =>
      rw [List.intercalate_cons_cons]
      exact .more ((hparse a cs).mp ha) (ih (List.cons_ne_nil _ _) hrest)

/-- **Reading all parts of a text reads the joined writings of what a part may be.** A part leaves
no quote open, so the separators between parts are those outside quotes. -/
theorem mapM_split_eq_ok (hmark : mark ≠ '"') (hparse : ∀ a cs, parse cs = .ok a ↔ R a cs)
    (henc : ∀ a cs, R a cs → Encloses mark false cs) :
    (splitOutsideQuotes [mark, mark] cs).mapM parse = .ok as ↔ Joined [mark, mark] R as cs := by
  constructor
  · intro h
    have hjoined : Joined [mark, mark]
        R as ([mark, mark].intercalate (splitOutsideQuotes [mark, mark] cs)) :=
      joined_of_mapM hparse splitFrom_ne_nil h
    rwa [intercalate_splitOutsideQuotes (List.cons_ne_nil _ _)] at hjoined
  · intro h
    -- the first separator outside quotes is the one behind the first part
    induction h with
    | @single a cs ha =>
      rw [splitOutsideQuotes_of_encloses (henc a cs ha)]
      exact mapM_cons_eq_ok.mpr ⟨a, [], (hparse a cs).mpr ha, rfl, rfl⟩
    | @more a cs as rest ha hrest ih =>
      rw [splitOutsideQuotes_append hmark (henc a cs ha)]
      exact mapM_cons_eq_ok.mpr ⟨a, as, (hparse a cs).mpr ha, ih, rfl⟩

end Joined

/-! ## Selectors -/

/-- **The body of a selector is read where it is written, and only there.** Alternatives are cut
first, and then the conditions that each of them asks for together. -/
theorem alternatives_eq_ok {all : List (List Condition)} : alternatives cs = .ok all ↔
    Selector.AnyWritten all cs := by
  have hcondition : ∀ c atom, condition (trim atom) = .ok c ↔ Padded Condition.Written c atom :=
    fun c atom => by
    rw [condition_eq_ok, padded_iff fun _ _ => Condition.Written.tight]
  refine mapM_split_eq_ok (by decide) (fun conjunction clause => ?_) encloses_all
  exact mapM_split_eq_ok (by decide) hcondition encloses_condition

/-- The text between parentheses that are the whole rest, blanks before them allowed. -/
def parenthesized? (cs : List Char) : Option (List Char) :=
  match cs.dropWhile isBlank with
  | '(' :: rest =>
    match rest.reverse with
    | ')' :: body => if body.contains '\n' then none else some body.reverse
    | _ => none
  | _ => none

/-- A body is taken from blanks and an outer pair of parentheses, which end the text. There is no
line feed in it. -/
theorem parenthesized?_eq_some {body : List Char} : parenthesized? cs = some body ↔
    ∃ gap, Blank gap ∧ '\n' ∉ body ∧ cs = gap ++ '(' :: (body ++ [')']) := by
  constructor
  · intro h
    unfold parenthesized? at h
    split at h
    case h_2 => exact absurd h nofun
    case h_1 rest hrest =>
      split at h
      case h_2 => exact absurd h nofun
      case h_1 reversed hreversed =>
        -- the closing bracket is the last character, so it is found in the reversed text
        split at h
        case isTrue => exact absurd h nofun
        case isFalse hfeed =>
          obtain rfl := Option.some.inj h
          obtain ⟨gap, hgap, hcs⟩ := exists_trimLeft cs
          refine ⟨gap, hgap, fun hmem =>
            hfeed (List.contains_iff_mem.mpr (List.mem_reverse.mp hmem)), ?_⟩
          rw [hcs, trimLeft, hrest, ← List.reverse_cons, ← hreversed, List.reverse_reverse]
  · rintro ⟨gap, hgap, hfeed, rfl⟩
    have hopen : (gap ++ '(' :: (body ++ [')'])).dropWhile isBlank = '(' :: (body ++ [')']) :=
      trimLeft_gap hgap fun c hc => Option.some.inj hc ▸ rfl
    have hclose : (body ++ [')']).reverse = ')' :: body.reverse := List.reverse_concat
    have hfree : body.reverse.contains '\n' = false :=
      Bool.eq_false_iff.mpr fun hmem => hfeed (List.mem_reverse.mp (List.contains_iff_mem.mp hmem))
    simp only [parenthesized?, hopen, hclose, hfree, Bool.false_eq_true, if_false,
      List.reverse_reverse]

/-- The longer keyword is tried first. The shorter one is not the beginning of it, so one of them at
most fits. -/
theorem selectorBody?_eq (cs : List Char) : selectorBody? cs =
    if "rfilter".toList.isPrefixOf cs then (parenthesized? (cs.drop 7)).map (true, ·)
    else if "filter".toList.isPrefixOf cs then
      (parenthesized? (cs.drop 6)).map (false, ·) else none := by
  unfold selectorBody? parenthesized?
  simp only [Option.bind_eq_bind, Option.bind_some, Option.bind_none]
  repeat' split
  all_goals simp_all

theorem selectorBody?_keyword (recursive : Bool) (rest : List Char) :
    selectorBody? (Selector.keyword recursive ++ rest) =
      (parenthesized? rest).map (recursive, ·) := by
  rw [selectorBody?_eq]
  cases recursive <;> rfl

/-- A text is a selector with a body exactly if it is one of the two keywords, blanks and the body
in parentheses. -/
theorem selectorBody?_eq_some {recursive : Bool} {body : List Char} :
    selectorBody? cs = some (recursive, body) ↔
    ∃ gap, Blank gap ∧ '\n' ∉ body ∧
      cs = Selector.keyword recursive ++ gap ++ '(' :: (body ++ [')']) := by
  have hread : selectorBody? cs = some (recursive, body) ↔
      ∃ rest, cs = Selector.keyword recursive ++ rest ∧ parenthesized? rest = some body := by
    constructor
    · intro h
      have hkeyword : ∃ recursive' rest, cs = Selector.keyword recursive' ++ rest := by
        rw [selectorBody?_eq] at h
        split at h
        case isTrue hprefix =>
          exact ⟨true, (List.isPrefixOf_iff_prefix.mp hprefix).imp fun _ => Eq.symm⟩
        case isFalse =>
          split at h
          case isTrue hprefix =>
            exact ⟨false, (List.isPrefixOf_iff_prefix.mp hprefix).imp fun _ => Eq.symm⟩
          case isFalse => exact absurd h nofun
      -- one of the two keywords stands in front, and tells which selector it is
      obtain ⟨recursive', rest, rfl⟩ := hkeyword
      rw [selectorBody?_keyword, Option.map_eq_some_iff] at h
      obtain ⟨body', hbody, heq⟩ := h
      obtain ⟨rfl, rfl⟩ := Prod.mk.inj heq
      exact ⟨rest, rfl, hbody⟩
    · rintro ⟨rest, rfl, hbody⟩
      rw [selectorBody?_keyword, hbody]
      rfl
  rw [hread]
  constructor
  · rintro ⟨rest, rfl, hbody⟩
    obtain ⟨gap, hgap, hfeed, rfl⟩ := parenthesized?_eq_some.mp hbody
    exact ⟨gap, hgap, hfeed, (List.append_assoc _ _ _).symm⟩
  · rintro ⟨gap, hgap, hfeed, rfl⟩
    exact ⟨_, List.append_assoc _ _ _, parenthesized?_eq_some.mpr ⟨gap, hgap, hfeed, rfl⟩⟩

/-- The blanks at the ends of the body make no difference, and the body is not empty. -/
theorem alternatives_trim_eq_ok {all : List (List Condition)} :
    (trim cs).isEmpty = false ∧ alternatives (trim cs) = .ok all ↔ Selector.AnyWritten all cs := by
  rw [alternatives_eq_ok, Selector.loose_any.trim_iff]
  refine ⟨And.right, fun h => ⟨?_, h⟩⟩
  have hsolid := Selector.loose_any.solid (Selector.loose_any.trim_iff.mpr h)
  exact List.isEmpty_eq_false_iff.mpr fun hnil => hsolid (hnil ▸ blank_nil)

/-- **A selector is read where it is written, and only there.** Blanks around it are trimmed, and
the keyword tells whether the whole tree is looked at. -/
theorem selector_eq_ok {s : Selector} : selector cs = .ok s ↔ s.Written cs := by
  rw [Selector.Written, padded_iff fun _ _ => Selector.Bare.tight]
  unfold selector
  constructor
  · intro h
    cases hread : selectorBody? (trim cs) with
    | none =>
      simp only [hread] at h
      cases h
    | some found =>
      obtain ⟨recursive, body⟩ := found
      simp only [hread] at h
      cases hempty : (trim body).isEmpty with
      | true =>
        simp only [hempty] at h
        cases h
      | false =>
        simp only [hempty, Bool.false_eq_true, if_false] at h
        cases hall : alternatives (trim body) with
        | error fault =>
          rw [hall] at h
          cases h
        | ok all =>
          rw [hall] at h
          obtain rfl := Except.ok.inj h
          obtain ⟨gap, hgap, hfeed, hcs⟩ := selectorBody?_eq_some.mp hread
          exact ⟨gap, body, hgap, hfeed, alternatives_trim_eq_ok.mp ⟨hempty, hall⟩, hcs⟩
  · rintro ⟨gap, body, hgap, hfeed, hwritten, hcs⟩
    have hread := selectorBody?_eq_some.mpr ⟨gap, hgap, hfeed, hcs⟩
    obtain ⟨hempty, hall⟩ := alternatives_trim_eq_ok.mpr hwritten
    simp only [hread, hempty, hall, Bool.false_eq_true, if_false]
    rfl

/-! ## Name queries -/

/-- **A name query is read where it is written, and only there.** Blanks around it are trimmed, and
no further text is allowed. -/
theorem nameField_eq_ok {f : Field} : nameField cs = .ok f ↔ Padded Field.Written f cs := by
  rw [padded_iff fun _ _ => Field.Written.tight]
  unfold nameField
  constructor
  · intro h
    split at h
    case h_2 => cases h
    case h_1 p hp =>
      obtain ⟨hvalid, hcs⟩ := takePath?_eq_some hp
      cases hresolve : p.resolve with
      | error fault =>
        simp only [hresolve] at h
        cases h
      | ok path =>
        simp only [hresolve, ok_bind] at h
        cases path with
        -- roles are no field that could name a unit
        | roles => cases h
        | field f' =>
          obtain rfl := Except.ok.inj h
          rw [hcs, List.append_nil]
          exact hvalid.written hresolve
  · intro h
    obtain ⟨p, hvalid, hresolve, hcs⟩ := exists_path_of_written h
    have hpath : takePath? (trim cs) = some (p, []) := by
      have hend : EndsPath [] := nofun
      have htake := takePath?_append hvalid hend
      rwa [List.append_nil, ← hcs] at htake
    simp only [hpath, hresolve, ok_bind]
    rfl

end QueryParser

/-! ## Both queries -/

/-- A query is compiled exactly if its selector and its field for names are parsed. -/
theorem UnitQuery.compile_eq_ok {structural name : String} {q : UnitQuery} :
    UnitQuery.compile structural name = .ok q ↔
      QueryParser.selector structural.toList = .ok q.selector ∧
      QueryParser.nameField name.toList = .ok q.name := by
  unfold UnitQuery.compile
  cases QueryParser.selector structural.toList with
  | error fault => exact ⟨nofun, fun h => absurd h.1 nofun⟩
  | ok s =>
    cases QueryParser.nameField name.toList with
    | error fault => exact ⟨nofun, fun h => absurd h.2 nofun⟩
    | ok f =>
      constructor
      · intro h
        obtain rfl := Except.ok.inj h
        exact ⟨rfl, rfl⟩
      · rintro ⟨hs, hf⟩
        rw [Except.ok.inj hs, Except.ok.inj hf]
        rfl

/-- **Queries are compiled where they are written, and only there, and mean what they say.** Every
disjunction of one or more conjunctions of one or more conditions has a writing, every writing is
read as what it says, whatever blanks stand around its tokens and whatever its quoted texts hold,
and nothing else is read. What is read selects the nodes of which all conditions of one of the
alternatives are true, in document order. -/
theorem compile_eq_ok_iff_written :
    (∀ s : Selector, (∃ cs, s.Written cs) ↔ s.Expressible) ∧
    (∀ f : Field, (∃ cs, Padded Field.Written f cs) ↔ f.Expressible) ∧
    (∀ structural name q, UnitQuery.compile structural name = .ok q ↔
      q.selector.Written structural.toList ∧ Padded Field.Written q.name name.toList) ∧
    (∀ (s : Selector) root, s.select root =
      (s.scope root).filter fun n => decide (s.Selects n)) := by
  refine ⟨Selector.exists_written_iff, fun f => ?_, fun structural name q => ?_, Selector.select_eq⟩
  · rw [← f.exists_written_iff]
    constructor
    · rintro ⟨_, _, path, _, -, -, hpath, -⟩
      exact ⟨path, hpath⟩
    · rintro ⟨path, hpath⟩
      exact ⟨_, [], path, [], blank_nil, blank_nil, hpath, rfl⟩
  · rw [UnitQuery.compile_eq_ok, QueryParser.selector_eq_ok, QueryParser.nameField_eq_ok]

/-- Separators and parentheses in a value belong to it, and `&&` binds tighter than `||`. -/
example : UnitQuery.compile " filter (.type!=\"a && b)\"&&.roles has\"F\" || .id == \"7\") "
    ".props.name" =
    .ok ⟨⟨false, [[.compare .kind .notEqual "a && b)", .hasRole "F"], [.compare .id .equal "7"]]⟩,
      .prop "name"⟩ := by
  decide +kernel

end CoChange
