import CoChange.Proofs.Text
import CoChange.Proofs.Text.Trim
import Mathlib.Data.List.Basic

/-!
# Texts with blanks around and separators between

Two ways to build the writings of something up from the writings of its parts: `Padded` puts blanks
around a text, `Joined` a separator between texts.

* **`padded_iff`**: what is written with blanks around is what is left when they are trimmed away.
* **`Loose.joined`**: blanks at the ends of a joined text belong to its outer parts, so it may have
  them where these may, and **`Loose.trim_iff`**: then they make no difference.

A path is written as the names on it with points in between. Names that hold no points can be told
from what is written (`Text.dotted_inj`), and if they are not empty, so can the empty path
(`Text.dotted_inj_of_segments`).
-/

namespace CoChange

open Text

variable {α : Type} {R : α → List Char → Prop} {a : α} {as : List α} {cs : List Char}

/-! ## Blanks around a text -/

/-- A writing with blanks around it. -/
def Padded (R : α → List Char → Prop) (a : α) (cs : List Char) : Prop :=
  ∃ left mid right, Blank left ∧ Blank right ∧ R a mid ∧ cs = left ++ mid ++ right

/-- **What is written with blanks around it is what is left when they are trimmed away**, if the
writings themselves have no blanks at their ends. -/
theorem padded_iff (htight : ∀ a cs, R a cs → trim cs = cs) : Padded R a cs ↔ R a (trim cs) := by
  constructor
  · rintro ⟨left, mid, right, hleft, hright, hmid, rfl⟩
    rwa [trim_padded hleft hright, htight a mid hmid]
  · intro h
    obtain ⟨left, right, hleft, hright, hcs⟩ := exists_trim cs
    exact ⟨left, trim cs, right, hleft, hright, h, hcs⟩

/-- Writings that hold more than blanks, and may have blanks at their ends or not. -/
structure Loose (R : α → List Char → Prop) : Prop where
  solid : ∀ {a cs}, R a cs → ¬ Blank cs
  padLeft : ∀ {a cs left}, R a cs → Blank left → R a (left ++ cs)
  padRight : ∀ {a cs right}, R a cs → Blank right → R a (cs ++ right)
  trimLeft : ∀ {a cs}, R a cs → R a (Text.trimLeft cs)
  trimRight : ∀ {a cs}, R a cs → R a (Text.trimRight cs)

/-- With blanks around each part, parts are found again by trimming, if they neither begin nor end
with one. -/
theorem Loose.padded (htight : ∀ a cs, R a cs → trim cs = cs)
    (hsolid : ∀ a cs, R a cs → ¬ Blank cs) :
    Loose (Padded R) where
  solid := fun ⟨_, _, _, _, _, hmid, hcs⟩ hblank => by
    rw [hcs, blank_append, blank_append] at hblank
    exact hsolid _ _ hmid hblank.1.2
  padLeft := fun ⟨l, mid, r, hl, hr, hmid, hcs⟩ hleft =>
    ⟨_ ++ l, mid, r, blank_append.mpr ⟨hleft, hl⟩, hr, hmid, by simp only [hcs, List.append_assoc]⟩
  padRight := fun ⟨l, mid, r, hl, hr, hmid, hcs⟩ hright =>
    ⟨l, mid, r ++ _, hl, blank_append.mpr ⟨hr, hright⟩, hmid, by simp only [hcs, List.append_assoc]⟩
  trimLeft := fun h => by
    rw [padded_iff htight, trim_trimLeft]
    exact (padded_iff htight).mp h
  trimRight := fun h => by
    rw [padded_iff htight, trim_trimRight]
    exact (padded_iff htight).mp h

/-- Where blanks make no difference, trimming makes none. -/
theorem Loose.trim_iff (h : Loose R) : R a (trim cs) ↔ R a cs := by
  constructor
  · intro htrim
    obtain ⟨left, right, hleft, hright, hcs⟩ := exists_trim cs
    rw [hcs]
    exact h.padRight (h.padLeft htrim hleft) hright
  · exact fun hcs => h.trimRight (h.trimLeft hcs)

/-! ## Texts with a separator between them -/

/-- Writings of one or more things with a separator between them. -/
inductive Joined (separator : List Char) (R : α → List Char → Prop) :
    List α → List Char → Prop where
  | single {a : α} {cs : List Char} (h : R a cs) : Joined separator R [a] cs
  | more {a : α} {cs : List Char}
      {as : List α} {rest : List Char} (h : R a cs) (hrest : Joined separator R as rest) :
      Joined separator R (a :: as) (cs ++ separator ++ rest)

variable {separator : List Char}

/-- What is joined of parts that are not blank is not blank. -/
theorem Joined.solid (hsolid : ∀ a cs, R a cs → ¬ Blank cs) (h : Joined separator R as cs) :
    ¬ Blank cs := by
  cases h with
  | single ha => exact hsolid _ _ ha
  | more ha hrest =>
    intro hblank
    rw [blank_append, blank_append] at hblank
    exact hsolid _ _ ha hblank.1.1

/-- The ends of a joined text are ends of its outer parts. -/
theorem Loose.joined (h : Loose R) : Loose (Joined separator R) where
  solid := Joined.solid fun _ _ => h.solid
  padLeft := fun hcs hleft => by
    -- blanks in front belong to the first part, and those behind to the last one
    cases hcs with
    | single ha => exact .single (h.padLeft ha hleft)
    | more ha hrest =>
      rw [← List.append_assoc, ← List.append_assoc]
      exact .more (h.padLeft ha hleft) hrest
  padRight := fun hcs hright => by
    induction hcs with
    | single ha => exact .single (h.padRight ha hright)
    | more ha hrest ih =>
      rw [List.append_assoc]
      exact .more ha ih
  trimLeft := fun hcs => by
    cases hcs with
    | single ha => exact .single (h.trimLeft ha)
    | more ha hrest =>
      rw [List.append_assoc, trimLeft_append (h.solid ha), ← List.append_assoc]
      exact .more (h.trimLeft ha) hrest
  trimRight := fun hcs => by
    induction hcs with
    | single ha => exact .single (h.trimRight ha)
    | more ha hrest ih =>
      rw [trimRight_append (hrest.solid fun _ _ => h.solid)]
      exact .more ha ih

theorem Joined.ne_nil (h : Joined separator R as cs) : as ≠ [] := by
  cases h <;> exact List.cons_ne_nil _ _

/-- Each of the joined things has its writing in the text. -/
theorem Joined.exists_part (h : Joined separator R as cs) :
    ∀ a ∈ as, ∃ part, R a part ∧ part ⊆ cs := by
  induction h with
  | single ha => exact fun a hmem => ⟨_, List.mem_singleton.mp hmem ▸ ha, List.Subset.refl _⟩
  | more ha hrest ih =>
    intro b hmem
    rcases List.mem_cons.mp hmem with rfl | hmem
    · exact ⟨_, ha, fun c hc => List.mem_append_left _ (List.mem_append_left _ hc)⟩
    · obtain ⟨part, hpart, hsub⟩ := ih b hmem
      exact ⟨part, hpart, fun c hc => List.mem_append_right _ (hsub hc)⟩

/-- What can be written without a character can be joined without it. -/
theorem exists_joined {c : Char} (hsep : c ∉ separator) (hne : as ≠ [])
    (h : ∀ a ∈ as, ∃ cs, R a cs ∧ c ∉ cs) :
    ∃ cs, Joined separator R as cs ∧ c ∉ cs := by
  induction as with
  | nil => exact absurd rfl hne
  | cons a as ih =>
    obtain ⟨cs, ha, hfree⟩ := h a List.mem_cons_self
    cases as with
    | nil => exact ⟨cs, .single ha, hfree⟩
    | cons b bs =>
      obtain ⟨rest, hrest, hrestFree⟩ :=
        ih (List.cons_ne_nil b bs) fun x hx => h x (List.mem_cons_of_mem a hx)
      refine ⟨_, .more ha hrest, fun hmem => ?_⟩
      rw [List.mem_append, List.mem_append] at hmem
      exact hmem.elim (·.elim hfree hsep) hrestFree

/-! ## Names joined by points -/

namespace Text

/-- The names on a path with points in between. -/
def dotted (path : List String) : String := ".".intercalate path

/-- A name that can be told from the others on a written path. -/
def IsSegment (name : String) : Prop := name ≠ "" ∧ '.' ∉ name.toList

instance (name : String) : Decidable (IsSegment name) := inferInstanceAs (Decidable (_ ∧ _))

theorem isSegment_toString (n : Nat) : IsSegment (toString n) := by
  refine ⟨Decimal.toString_ne_empty n, ?_⟩
  rw [Decimal.toList_toString]
  exact Decimal.not_mem_toDigits rfl n

theorem dotted_nil : dotted [] = "" := rfl

theorem dotted_singleton (name : String) : dotted [name] = name := String.intercalate_singleton

theorem dotted_concat {path : List String} (h : path ≠ []) (name : String) :
    dotted (path ++ [name]) = dotted path ++ "." ++ name := by
  rw [dotted, String.intercalate_append_of_ne_nil h (List.cons_ne_nil _ _),
    String.intercalate_singleton]
  rfl

/-- Only the empty path is written as nothing. -/
theorem dotted_ne_empty {path : List String} (hpath : path ≠ [])
    (hnames : ∀ name ∈ path, IsSegment name) :
    dotted path ≠ "" := by
  obtain ⟨front, last, rfl⟩ := path.eq_nil_or_concat'.resolve_left hpath
  have hlast : last ≠ "" := (hnames last (List.mem_append_right _ List.mem_cons_self)).1
  by_cases hfront : front = []
  · rwa [hfront, List.nil_append, dotted_singleton]
  · rw [dotted_concat hfront]
    exact fun h => hlast (String.append_eq_empty_iff.mp h).2

/-- **Names without points can be told from the written path.** The points of the text are those
between the names, and cutting there gives the names back. -/
theorem dotted_inj {path path' : List String} (hpath : path ≠ []) (hpath' : path' ≠ [])
    (hdots : ∀ name ∈ path, '.' ∉ name.toList) (hdots' : ∀ name ∈ path', '.' ∉ name.toList)
    (h : dotted path = dotted path') : path = path' := by
  have hsplit {path : List String} (hpath : path ≠ []) (hdots : ∀ name ∈ path, '.' ∉ name.toList) :
      (dotted path).toList.splitOn '.' = path.map String.toList := by
    rw [dotted, String.toList_intercalate]
    exact List.splitOn_intercalate '.' (by simpa using hdots) (by simpa using hpath)
  have hmap := (hsplit hpath hdots).symm.trans
    ((congrArg (·.toList.splitOn '.') h).trans (hsplit hpath' hdots'))
  exact List.map_injective_iff.mpr (fun _ _ => String.toList_inj.mp) hmap

/-- Two paths of proper names that are joined with points to one text are the same, since no point
of the text is in a name. -/
theorem dotted_inj_of_segments {path path' : List String} (hnames : ∀ name ∈ path, IsSegment name)
    (hnames' : ∀ name ∈ path', IsSegment name) (h : dotted path = dotted path') : path = path' := by
  by_cases hpath : path = []
  · by_contra hne
    rw [hpath, dotted_nil] at h
    exact dotted_ne_empty (fun hpath' => hne (hpath.trans hpath'.symm)) hnames' h.symm
  by_cases hpath' : path' = []
  · rw [hpath', dotted_nil] at h
    exact absurd h (dotted_ne_empty hpath hnames)
  · exact dotted_inj hpath hpath'
      (fun name hname => (hnames name hname).2) (fun name hname => (hnames' name hname).2) h

end Text

end CoChange
