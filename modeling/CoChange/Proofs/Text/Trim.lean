import CoChange.Text.Blank
import Mathlib.Data.List.TakeWhile

/-!
# Blanks around a text

* **`exists_trim`**: a text is its trimmed part with blanks on both sides.
* **`trim_padded`**: blanks around a text make no difference to what is left when it is trimmed.
* **`trim_of_ends`**: a text is left as it is when something else than a blank stands at both ends.
-/

namespace CoChange.Text

def Blank (cs : List Char) : Prop := ∀ c ∈ cs, isBlank c = true

instance (cs : List Char) : Decidable (Blank cs) :=
  inferInstanceAs (Decidable (∀ c ∈ cs, isBlank c = true))

/-- Among the visible characters of ASCII is no blank. -/
theorem isBlank_of_toNat {c : Char} (h : 33 ≤ c.toNat ∧ c.toNat ≤ 127) : isBlank c = false := by
  simp only [isBlank, Bool.or_eq_false_iff, Bool.and_eq_false_iff, decide_eq_false_iff_not,
    beq_eq_false_iff_ne]
  omega

theorem isBlank_of_isDigit {c : Char} (h : c.isDigit = true) : isBlank c = false := by
  have hcode : 48 ≤ c.toNat ∧ c.toNat ≤ 57 := Char.isDigit_iff_toNat.mp h
  exact isBlank_of_toNat (by omega)

variable {cs left mid right : List Char}

theorem blank_nil : Blank [] := fun _ h => absurd h List.not_mem_nil

theorem blank_space : Blank [' '] := List.forall_mem_singleton.mpr rfl

theorem blank_append : Blank (left ++ right) ↔ Blank left ∧ Blank right := List.forall_mem_append

theorem blank_reverse : Blank cs.reverse ↔ Blank cs :=
  forall_congr' fun _ => imp_congr List.mem_reverse Iff.rfl

/-! ## One side -/

theorem trimLeft_of_blank (h : Blank left) (cs : List Char) : trimLeft (left ++ cs) = trimLeft cs :=
  List.dropWhile_append_of_pos h

theorem trimRight_of_blank (h : Blank right) (cs : List Char) :
    trimRight (cs ++ right) = trimRight cs := by
  rw [trimRight, trimRight, List.reverse_append]
  exact congrArg List.reverse (trimLeft_of_blank (blank_reverse.mpr h) cs.reverse)

theorem trimLeft_eq_nil : trimLeft cs = [] ↔ Blank cs := List.dropWhile_eq_nil_iff

theorem trimLeft_cons {c : Char} (h : isBlank c = false) (rest : List Char) :
    trimLeft (c :: rest) = c :: rest :=
  List.dropWhile_cons_of_neg (by simp [h])

theorem exists_trimLeft (cs : List Char) : ∃ left, Blank left ∧ cs = left ++ trimLeft cs :=
  ⟨cs.takeWhile isBlank, fun _ hc => List.mem_takeWhile_imp hc,
    List.takeWhile_append_dropWhile.symm⟩

/-- A text is what is left of it when its end is trimmed, and blanks. -/
theorem exists_trimRight (cs : List Char) : ∃ right, Blank right ∧ cs = trimRight cs ++ right := by
  obtain ⟨left, hleft, heq⟩ := exists_trimLeft cs.reverse
  refine ⟨left.reverse, blank_reverse.mpr hleft, ?_⟩
  calc cs = cs.reverse.reverse := (List.reverse_reverse cs).symm
    _ = (left ++ trimLeft cs.reverse).reverse := congrArg List.reverse heq
    _ = trimRight cs ++ left.reverse := List.reverse_append

/-- A text that holds more than blanks loses the same blanks at its front whatever follows it. -/
theorem trimLeft_append (h : ¬ Blank cs) (rest : List Char) :
    trimLeft (cs ++ rest) = trimLeft cs ++ rest := by
  have hne : (cs.dropWhile isBlank).isEmpty = false :=
    List.isEmpty_eq_false_iff.mpr fun hnil => h (trimLeft_eq_nil.mp hnil)
  rw [trimLeft, List.dropWhile_append, hne]
  rfl

/-- A text that holds more than blanks loses the same blanks at its end whatever stands before
it. -/
theorem trimRight_append (h : ¬ Blank cs) (left : List Char) :
    trimRight (left ++ cs) = left ++ trimRight cs := by
  have hrev := trimLeft_append (mt blank_reverse.mp h) left.reverse
  rw [← List.reverse_append] at hrev
  calc trimRight (left ++ cs) = (trimLeft cs.reverse ++ left.reverse).reverse :=
    congrArg List.reverse hrev
    _ = left ++ trimRight cs := by rw [List.reverse_append, List.reverse_reverse]; rfl

/-! ## Both sides -/

/-- **Blanks around a text are trimmed away.** Blanks at the ends are dropped one by one, up to what
is no blank. -/
theorem trim_padded (hleft : Blank left) (hright : Blank right) :
    trim (left ++ mid ++ right) = trim mid := by
  rw [trim, trim, List.append_assoc, trimLeft_of_blank hleft]
  by_cases hmid : Blank mid
  · rw [trimLeft_eq_nil.mpr (blank_append.mpr ⟨hmid, hright⟩), trimLeft_eq_nil.mpr hmid]
  · rw [trimLeft_append hmid, trimRight_of_blank hright]

theorem trim_trimLeft : trim (trimLeft cs) = trim cs := by
  obtain ⟨left, hleft, hcs⟩ := exists_trimLeft cs
  have hsame : trim (left ++ trimLeft cs ++ []) = trim (trimLeft cs) := trim_padded hleft blank_nil
  rw [List.append_nil, ← hcs] at hsame
  exact hsame.symm

/-- To trim the end first makes no difference to trimming. -/
theorem trim_trimRight : trim (trimRight cs) = trim cs := by
  obtain ⟨right, hright, hcs⟩ := exists_trimRight cs
  have hsame : trim ([] ++ trimRight cs ++ right) = trim (trimRight cs) :=
    trim_padded blank_nil hright
  rw [List.nil_append, ← hcs] at hsame
  exact hsame.symm

/-- **A text is its trimmed part with blanks around.** What is trimmed away on either side are
blanks only. -/
theorem exists_trim (cs : List Char) :
    ∃ left right, Blank left ∧ Blank right ∧ cs = left ++ trim cs ++ right := by
  obtain ⟨left, hleft, hcs⟩ := exists_trimLeft cs
  obtain ⟨right, hright, hmid⟩ := exists_trimRight (trimLeft cs)
  exact ⟨left, right, hleft, hright, by rw [List.append_assoc, trim, ← hmid, ← hcs]⟩

/-- **Nothing is trimmed away between two characters that are no blanks.** So a text that begins and
ends with something stays as it is. -/
theorem trim_of_ends (hhead : ∀ c ∈ cs.head?, isBlank c = false)
    (hlast : ∀ c ∈ cs.getLast?, isBlank c = false) :
    trim cs = cs := by
  have hleft : trimLeft cs = cs := by
    cases cs with
    | nil => rfl
    | cons c rest => exact trimLeft_cons (hhead c rfl) rest
  have hright : trimLeft cs.reverse = cs.reverse := by
    cases hrev : cs.reverse with
    | nil => rfl
    | cons c rest =>
      refine trimLeft_cons (hlast c ?_) rest
      rw [← List.head?_reverse, hrev]
      rfl
  rw [trim, hleft]
  show (trimLeft cs.reverse).reverse = cs
  rw [hright, List.reverse_reverse]

theorem trim_of_no_blank (h : ∀ c ∈ cs, isBlank c = false) : trim cs = cs :=
  trim_of_ends (fun c hc => h c (List.mem_of_mem_head? hc)) fun c hc =>
    h c (List.mem_of_mem_getLast? hc)

end CoChange.Text
