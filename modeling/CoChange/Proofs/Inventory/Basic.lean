import CoChange.Proofs.Journal.Refinement
import Mathlib.Data.List.Pairwise
import Mathlib.Logic.Equiv.Basic

/-!
# Inventories

What a registry says in the middle of a commit, with units told apart by themselves and not by their
keys: their counts and couplings, the files that have a line in the index, and the touched units. On
an inventory a rename to a free path is an exchange of two paths, and so events are plain to
compare.

* **`Inventory.apply_comm`**: events that name no common path can change places.
* **`Inventory.foldl_events_perm`**: so can the changes of a commit that names no path twice.
-/

namespace CoChange

/-! ## Paths -/

namespace CodeUnit

variable {source target : String} {u v : CodeUnit}

/-- The unit with two paths exchanged. -/
def exchanged (source target : String) (u : CodeUnit) : CodeUnit :=
  u.relocated (Equiv.swap source target u.file)

theorem exchanged_of_ne (hsource : u.file ≠ source) (htarget : u.file ≠ target) :
    u.exchanged source target = u := by
  rw [exchanged, Equiv.swap_apply_of_ne_of_ne hsource htarget, relocated_self]

theorem exchanged_of_source (hsource : u.file = source) :
    u.exchanged source target = u.relocated target := by
  rw [exchanged, hsource, Equiv.swap_apply_left]

theorem exchanged_exchanged : (u.exchanged source target).exchanged source target = u := by
  rw [exchanged, exchanged, relocated_file, relocated_relocated, Equiv.swap_apply_self,
    relocated_self]

/-- To exchange two files is its own inverse. -/
theorem exchanged_eq_iff : u.exchanged source target = v ↔ u = v.exchanged source target := by
  constructor
  · rintro rfl
    exact exchanged_exchanged.symm
  · rintro rfl
    exact exchanged_exchanged

/-- Exchanges of different paths can change places. -/
theorem exchanged_comm {source' target' : String} (hss : source ≠ source') (hst : source ≠ target')
    (hts : target ≠ source') (htt : target ≠ target') :
    (u.exchanged source target).exchanged source' target' =
      (u.exchanged source' target').exchanged source target := by
  have hfile : Equiv.swap source' target' (Equiv.swap source target u.file) =
      Equiv.swap source target (Equiv.swap source' target' u.file) := by
    simp only [Equiv.swap_apply_def]
    grind
  rw [exchanged, exchanged, exchanged, exchanged, relocated_file, relocated_file,
    relocated_relocated, relocated_relocated, hfile]

end CodeUnit

/-- The paths that an event names. -/
def Event.paths : Event → List String
  | .rename source target => [source, target]
  | .touch u => [u.file]

/-- No path is named by both events. -/
def Event.Apart (a b : Event) : Prop := ∀ path, path ∈ a.paths → path ∉ b.paths

/-- The events of a change name paths that the change names. -/
theorem Change.mem_paths_of_events {q : UnitQuery} {c : Change} {event : Event}
    (h : event ∈ c.events q) {path : String} (hpath : path ∈ event.paths) : path ∈ c.paths := by
  cases event with
  | touch u =>
    have hu := touch_mem_events.mp h
    obtain rfl : path = u.file := List.mem_singleton.mp hpath
    rw [file_of_mem_units hu]
    exact target_mem_paths hu
  | rename source target =>
    obtain ⟨hr, rfl, rfl⟩ := rename_mem_events.mp h
    rwa [paths, (kind_of_isRename hr).1]

/-! ## Inventories -/

/-- What a registry in the middle of a commit says of units. -/
@[ext]
structure Inventory where
  count : CodeUnit → Option Nat
  coupling : CodeUnit → CodeUnit → Option Nat
  filed : String → Prop
  touched : Finset CodeUnit

namespace Inventory

/-- The count of a unit behind a touch. -/
def raised (I : Inventory) (u : CodeUnit) : Nat :=
  match I.count u with
  | some n => if u ∈ I.touched then n else n + 1
  | none => 1

/-- Counts a touch of a unit, which gets a line if it is new. -/
def touch (u : CodeUnit) (I : Inventory) : Inventory where
  count v := if v = u then some (I.raised u) else I.count v
  coupling := I.coupling
  filed file := (I.count u = none ∧ file = u.file) ∨ I.filed file
  touched := insert u I.touched

/-- Exchanges two paths, the second of which has no units. -/
def rename (source target : String) (I : Inventory) : Inventory where
  count u := I.count (u.exchanged source target)
  coupling u v := I.coupling (u.exchanged source target) (v.exchanged source target)
  filed file := (file = target ∧ I.filed source) ∨ (file ≠ source ∧ I.filed file)
  touched := I.touched

/-- What an event does. -/
def apply (I : Inventory) : Event → Inventory
  | .rename source target => I.rename source target
  | .touch u => I.touch u

variable {I : Inventory} {source target : String} {u v : CodeUnit}

theorem count_touch_self : (I.touch u).count u = some (I.raised u) := if_pos rfl

theorem count_touch_of_ne (h : v ≠ u) : (I.touch u).count v = I.count v := if_neg h

/-- A unit that is there is there after a touch. -/
theorem isSome_count_touch (h : (I.count v).isSome = true) :
    ((I.touch u).count v).isSome = true := by
  by_cases hv : v = u
  · rw [hv, count_touch_self]
    rfl
  · rwa [count_touch_of_ne hv]

theorem raised_touch_of_ne (h : v ≠ u) : (I.touch u).raised v = I.raised v := by
  rw [raised, raised, count_touch_of_ne h]
  simp only [touch, Finset.mem_insert, or_iff_right h]

theorem count_rename_of_ne (hsource : u.file ≠ source) (htarget : u.file ≠ target) :
    (I.rename source target).count u = I.count u :=
  congrArg I.count (CodeUnit.exchanged_of_ne hsource htarget)

theorem raised_rename_of_ne (hsource : u.file ≠ source) (htarget : u.file ≠ target) :
    (I.rename source target).raised u = I.raised u := by
  rw [raised, raised, count_rename_of_ne hsource htarget]
  rfl

/-! ## Events change places -/

/-- Touches of two units can change places. Each of them raises its own count once, whatever was
touched before. -/
theorem touch_comm (I : Inventory) (u v : CodeUnit) :
    (I.touch u).touch v = (I.touch v).touch u := by
  by_cases huv : u = v
  · rw [huv]
  · -- neither touch sees the other one
    have hraised := raised_touch_of_ne (I := I) huv
    have hraised' := raised_touch_of_ne (I := I) (Ne.symm huv)
    have hcount := count_touch_of_ne (I := I) huv
    have hcount' := count_touch_of_ne (I := I) (Ne.symm huv)
    refine Inventory.ext (funext fun w => ?_)
      rfl (funext fun file => propext ?_) (Finset.insert_comm _ _ _)
    · show (if w = v then some ((I.touch u).raised v) else if w = u then
        some (I.raised u) else I.count w) =
        if w = u then some ((I.touch v).raised u) else if w = v then
          some (I.raised v) else I.count w
      rw [hraised, hraised']
      by_cases hw : w = v
      · rw [if_pos hw, if_neg fun h => huv (h.symm.trans hw), if_pos hw]
      · rw [if_neg hw, if_neg hw]
    · show ((I.touch u).count v = none ∧ _) ∨ _ ∨ _ ↔ ((I.touch v).count u = none ∧ _) ∨ _ ∨ _
      rw [hcount, hcount']
      exact or_left_comm

/-- A touch and a renaming can change places, if the unit is of neither of the two files. -/
theorem touch_rename_comm (I : Inventory) (hsource : u.file ≠ source) (htarget : u.file ≠ target) :
    (I.touch u).rename source target = (I.rename source target).touch u := by
  refine Inventory.ext (funext fun w => ?_) rfl (funext fun file => propext ?_) rfl
  · show (if w.exchanged source target = u then _ else I.count _) = if w = u then _ else I.count _
    simp only [raised_rename_of_ne hsource htarget, CodeUnit.exchanged_eq_iff,
      CodeUnit.exchanged_of_ne hsource htarget]
  · show _ ↔ ((I.rename source target).count u = none ∧ _) ∨ _
    rw [count_rename_of_ne hsource htarget]
    -- the line that a new unit gets is under neither of the two paths
    simp only [touch, rename, Ne.symm hsource, and_false, false_or]
    constructor
    · rintro (h | ⟨hfile, hnew | hold⟩)
      · exact Or.inr (Or.inl h)
      · exact Or.inl hnew
      · exact Or.inr (Or.inr ⟨hfile, hold⟩)
    · rintro (hnew | h | ⟨hfile, hold⟩)
      · exact Or.inr ⟨fun h => hsource (hnew.2.symm.trans h), Or.inl hnew⟩
      · exact Or.inl h
      · exact Or.inr ⟨hfile, Or.inr hold⟩

/-- Two renamings can change places, if they have no file in common. -/
theorem rename_comm (I : Inventory) {source' target' : String} (hss : source ≠ source')
    (hst : source ≠ target') (hts : target ≠ source') (htt : target ≠ target') :
    (I.rename source target).rename source' target' =
      (I.rename source' target').rename source target := by
  have hexchange (w : CodeUnit) := CodeUnit.exchanged_comm (u := w) hss hst hts htt
  refine Inventory.ext (funext fun w => ?_) (funext fun w => funext fun w' => ?_)
    (funext fun file => propext ?_) rfl
  · show I.count _ = I.count _
    rw [hexchange]
  · show I.coupling _ _ = I.coupling _ _
    rw [hexchange, hexchange]
  · simp only [rename]
    grind

/-- **Events that name no common path can change places.** The cases are those of the two events. -/
theorem apply_comm (I : Inventory) {a b : Event} (h : a.Apart b) :
    (I.apply a).apply b = (I.apply b).apply a := by
  cases a with
  | touch u =>
    cases b with
    | touch v => exact touch_comm I u v
    | rename source target =>
      have hu := h u.file List.mem_cons_self
      simp only [Event.paths, List.mem_cons, List.not_mem_nil, or_false, not_or] at hu
      exact touch_rename_comm I hu.1 hu.2
  | rename source target =>
    have hsource := h source List.mem_cons_self
    have htarget := h target (List.mem_cons_of_mem _ List.mem_cons_self)
    cases b with
    | touch v =>
      simp only [Event.paths, List.mem_singleton] at hsource htarget
      exact (touch_rename_comm I (Ne.symm hsource) (Ne.symm htarget)).symm
    | rename source' target' =>
      simp only [Event.paths, List.mem_cons, List.not_mem_nil, or_false, not_or] at hsource htarget
      exact rename_comm I hsource.1 hsource.2 htarget.1 htarget.2

/-! ## Allowed events -/

/-- The path has no units. -/
def Free (I : Inventory) (path : String) : Prop := ∀ u, u.file = path → I.count u = none

theorem Free.ne {path : String} (h : I.Free path) {n : Nat} (hn : I.count u = some n) :
    u.file ≠ path := fun hu => by
  rw [h u hu] at hn
  exact absurd hn (by simp)

/-- The event deals with the given units only, and if it is a rename, its new path is free. -/
def Allows (units : List CodeUnit) (I : Inventory) : Event → Prop
  | .rename source target => source ≠ target ∧ I.Free target ∧
      ∀ u n, u.file = source → I.count u = some n → u.relocated target ∈ units
  | .touch u => u ∈ units

/-- Units of other files than an event names keep their counts. -/
theorem count_apply_of_not_mem {event : Event} (h : u.file ∉ event.paths) :
    (I.apply event).count u = I.count u := by
  cases event with
  | touch v =>
    refine count_touch_of_ne fun heq => h ?_
    rw [heq]
    exact List.mem_singleton.mpr rfl
  | rename source target =>
    simp only [Event.paths, List.mem_cons, List.not_mem_nil, or_false, not_or] at h
    exact count_rename_of_ne h.1 h.2

/-- What is allowed stays allowed behind events that name other paths. -/
theorem Allows.apply {units : List CodeUnit} {a b : Event} (h : I.Allows units b)
    (hab : a.Apart b) :
    (I.apply a).Allows units b := by
  cases b with
  | touch u => exact h
  | rename source target =>
    obtain ⟨hne, hfree, hmoved⟩ := h
    have hkeep {path : String} (hpath : path ∈ (Event.rename source target).paths) {u : CodeUnit}
        (hu : u.file = path) : (I.apply a).count u = I.count u :=
      count_apply_of_not_mem fun hmem => hab u.file hmem (hu ▸ hpath)
    refine ⟨hne, fun u hu => ?_, fun u n hu hn => ?_⟩
    · rw [hkeep (List.mem_cons_of_mem _ List.mem_cons_self) hu, hfree u hu]
    · rw [hkeep List.mem_cons_self hu] at hn
      exact hmoved u n hu hn

/-! ## Changes change places -/

/-- An event can be put behind others that it has no path in common with. The induction is on
these. -/
theorem apply_foldl_comm {a : Event} {events : List Event} (h : ∀ b ∈ events, a.Apart b)
    (I : Inventory) :
    events.foldl apply (I.apply a) = (events.foldl apply I).apply a := by
  induction events generalizing I with
  | nil => rfl
  | cons b rest ih =>
    obtain ⟨hb, hrest⟩ := List.forall_mem_cons.mp h
    rw [List.foldl_cons, List.foldl_cons, apply_comm I hb, ih hrest]

/-- Two groups of events can change places, if no path is named in both of them. -/
theorem foldl_foldl_comm {events events' : List Event} (h : ∀ a ∈ events, ∀ b ∈ events', a.Apart b)
    (I : Inventory) : events'.foldl apply (events.foldl apply I) =
      events.foldl apply (events'.foldl apply I) := by
  induction events generalizing I with
  | nil => rfl
  | cons a rest ih =>
    obtain ⟨ha, hrest⟩ := List.forall_mem_cons.mp h
    rw [List.foldl_cons, List.foldl_cons, ih hrest, apply_foldl_comm ha]

/-- **The order of the changes does not matter to an inventory** if no two of them name one path.
Two changes next to each other may be swapped, and any order is reached by such swaps. -/
theorem foldl_events_perm {q : UnitQuery} {changes changes' : List Change}
    (hperm : changes'.Perm changes)
    (hapart : changes.Pairwise fun a b => ∀ path, path ∈ a.paths → path ∉ b.paths) (I : Inventory) :
    (changes'.flatMap (·.events q)).foldl apply I =
      (changes.flatMap (·.events q)).foldl apply I := by
  have hsymm : Std.Symm fun a b : Change => ∀ path, path ∈ a.paths → path ∉ b.paths :=
    ⟨fun a b h path hb ha => h path ha hb⟩
  rw [List.foldl_flatMap, List.foldl_flatMap]
  refine hperm.foldl_eq' (fun a ha b hb I => ?_) I
  by_cases hab : a = b
  · rw [hab]
  · have hpaths := hapart.forall (hperm.mem_iff.mp ha) (hperm.mem_iff.mp hb) hab
    exact foldl_foldl_comm (fun x hx y hy path hpx hpy =>
      hpaths path (Change.mem_paths_of_events hx hpx) (Change.mem_paths_of_events hy hpy)) I

end Inventory

end CoChange
