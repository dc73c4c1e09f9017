import CoChange.Proofs.SortedMap
import CoChange.Settings.Toml

/-!
# What a look-up finds

* **`Settings.get?_eq`**: a look-up goes through the sections one by one.
* **`Settings.textAt?_sectionsOf_eq_some_iff`**: sections have what has been assigned, if no two
  assignments disagree.
-/

namespace CoChange

/-- What a section has under a key. -/
def Sections.textAt? (sections : Sections) (name key : String) : Option String :=
  (sections.get? name).bind (·.get? key)

namespace Settings

/-- **A look-up goes through the sections one by one**: the selected one, the one asked for, and the
one that all look-ups end with. -/
theorem get?_eq (s : Settings) (name key : String) :
    s.get? name key = (s.selected.bind (s.sections.textAt? · key)).or
      ((s.sections.textAt? name key).or (s.sections.textAt? baseSection key)) := by
  have hcons (f : String → Option String) (n : String) (rest : List String) :
      (n :: rest).findSome? f = (f n).or (rest.findSome? f) := by
    rw [List.findSome?_cons]
    cases f n <;> rfl
  cases hselected : s.selected <;> simp [get?, searched, hselected, Sections.textAt?, hcons]

/-! ## Assignments -/

/-- No two assignments give one key of one section different texts. -/
def Consistent (assignments : List Assignment) : Prop :=
  ∀ a ∈ assignments, ∀ b ∈ assignments, a.sectionName = b.sectionName →
    a.key = b.key → a.text = b.text

/-- Sections with one more assignment. -/
def assign (sections : Sections) (a : Assignment) : Sections :=
  sections.insert a.sectionName ((sections.getD a.sectionName ∅).insert a.key a.text)

/-- An assignment changes the text at its own place and at no other one. -/
theorem textAt?_assign (sections : Sections) (a : Assignment) (name key : String) :
    (assign sections a).textAt? name key =
      if name = a.sectionName ∧ key = a.key then some a.text else sections.textAt? name key := by
  unfold Sections.textAt? assign
  rw [SortedMap.get?_insert]
  by_cases hname : name = a.sectionName
  · subst hname
    rw [if_pos rfl, Option.bind_some, SortedMap.get?_insert, SortedMap.getD_eq]
    cases sections.get? a.sectionName <;> simp
  · simp [hname]

variable {assignments : List Assignment} {sections : Sections} {name key text : String}

/-- What is found after some assignments was assigned by one of them or was there before. -/
theorem textAt?_foldl_cases
    (h : Sections.textAt? (assignments.foldl assign sections) name key = some text) :
    ⟨name, key, text⟩ ∈ assignments ∨ sections.textAt? name key = some text := by
  induction assignments generalizing sections with
  | nil => exact .inr h
  | cons a rest ih =>
    -- the assignments behind the first one are made later, so they are asked first
    rcases ih h with hrest | hassign
    · exact .inl (List.mem_cons_of_mem _ hrest)
    · rw [textAt?_assign] at hassign
      split at hassign
      · rename_i hplace
        obtain ⟨rfl, rfl⟩ := hplace
        obtain rfl := Option.some.inj hassign
        exact .inl List.mem_cons_self
      · exact .inr hassign

/-- What has been assigned once stays there, unless it is replaced by another text. -/
theorem isSome_textAt?_foldl (sections : Sections)
    (h : (∃ a ∈ assignments, a.sectionName = name ∧ a.key = key) ∨
      (sections.textAt? name key).isSome) :
    (Sections.textAt? (assignments.foldl assign sections) name key).isSome := by
  induction assignments generalizing sections with
  | nil => exact h.resolve_left (by simp)
  | cons a rest ih =>
    refine ih _ ?_
    rw [textAt?_assign]
    rcases h with ⟨b, hb, hplace⟩ | hbefore
    · rcases List.mem_cons.mp hb with rfl | hb
      · exact .inr (by rw [if_pos ⟨hplace.1.symm, hplace.2.symm⟩]; rfl)
      · exact .inl ⟨b, hb, hplace⟩
    · refine .inr ?_
      split
      · rfl
      · exact hbefore

/-- **Sections have what has been assigned.** Assignments to one place agree on the text, so it does
not matter which of them comes last. -/
theorem textAt?_sectionsOf_eq_some_iff (h : Consistent assignments) :
    (sectionsOf assignments).textAt? name key = some text ↔ ⟨name, key, text⟩ ∈ assignments := by
  have hfound {text : String} (hentry : (sectionsOf assignments).textAt? name key = some text) :
      ⟨name, key, text⟩ ∈ assignments :=
    (textAt?_foldl_cases hentry).resolve_right nofun
  refine ⟨hfound, fun hmem => ?_⟩
  obtain ⟨text', hentry⟩ := Option.isSome_iff_exists.mp
    (isSome_textAt?_foldl ∅ (.inl ⟨_, hmem, rfl, rfl⟩))
  have htext : text' = text := h _ (hfound hentry) _ hmem rfl rfl
  exact htext ▸ hentry

end Settings

end CoChange
