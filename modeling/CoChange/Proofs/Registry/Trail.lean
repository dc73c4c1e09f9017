import CoChange.Proofs.Registry.Rename
import CoChange.Proofs.Registry.Event

/-!
# Following units through a commit

A unit keeps its identity when its file is renamed, but not its key. `Pass.trail` follows a key
through the events of a commit, and `Pass.tally` counts how often the unit that stands there is
counted on the way. As long as every rename separates the units (`Pass.Separated`), this is all that
happens:

* **`mutual_foldl`**: the couplings stay symmetric and refer to units that are there.
* **`trail_mem`**, **`trail_inj`**: units that are there stay there and stay apart.
* **`countAt_trail`**: the count of a unit grows by its tally.
* **`mem_foldl_apply`**: a unit that is there at the end was there before, or a touch has made it.
* **`grows_iff`**: a unit is counted at most once exactly if no two touches count it.
-/

namespace CoChange

namespace Registry

namespace Pass

/-- The key under which a unit stands after an event. -/
def advance (p : Pass) : Event → String → String
  | .rename source target, k => p.registry.newKey source target k
  | .touch _, k => k

/-- What an event adds to the count of the unit under a key, if that is there: the first touch of
the commit under this key counts. -/
def gain (p : Pass) : Event → String → Nat
  | .rename _ _, _ => 0
  | .touch u, k => if k = u.key ∧ k ∉ p.touched then 1 else 0

/-- The key under which a unit stands after several events. -/
def trail : List Event → Pass → String → String
  | [], _, k => k
  | event :: rest, p, k => trail rest (p.apply event) (p.advance event k)

/-- How often a unit is counted by several events. -/
def tally : List Event → Pass → String → Nat
  | [], _, _ => 0
  | event :: rest, p, k => p.gain event k + tally rest (p.apply event) (p.advance event k)

/-- Something holds at each rename, when it is applied. -/
def AtRenames (P : Pass → String → String → Prop) (p : Pass) (events : List Event) : Prop :=
  ∀ done source target ahead, events = done ++ .rename source target :: ahead →
    P (done.foldl apply p) source target

section AtRenames

variable {P : Pass → String → String → Prop} {p : Pass} {event : Event} {done ahead : List Event}

/-- What holds at all renames of a list of events holds at the first event, if that is one. -/
theorem AtRenames.head (h : AtRenames P p (event :: ahead)) : AtRenames P p [event] :=
  fun done' source target ahead' heq => h done' source target (ahead' ++ ahead) (by
    rw [← List.singleton_append, heq]
    simp)

/-- It holds at the renames behind the first event, which start from what that leaves. -/
theorem AtRenames.tail (h : AtRenames P p (event :: ahead)) : AtRenames P (p.apply event) ahead :=
  fun done' source target ahead' heq => h (event :: done') source target ahead' (by rw [heq]; rfl)

/-- It holds at the renames of a first part. -/
theorem AtRenames.left (h : AtRenames P p (done ++ ahead)) : AtRenames P p done :=
  fun done' source target ahead' heq => h done' source target (ahead' ++ ahead) (by rw [heq]; simp)

/-- It holds at the renames of what follows a first part, from what that leaves. -/
theorem AtRenames.right (h : AtRenames P p (done ++ ahead)) :
    AtRenames P (done.foldl apply p) ahead := fun done' source target ahead' heq => by
  have hsplit := h (done ++ done') source target ahead' (by rw [heq, List.append_assoc])
  rwa [List.foldl_append] at hsplit

theorem atRenames_nil : AtRenames P p [] :=
  fun done source target ahead' heq => absurd heq (by simp)

/-- What holds at all renamings behind a touch holds at those from the touch on. -/
theorem AtRenames.touch {u : CodeUnit} (h : AtRenames P (p.touch u) ahead) :
    AtRenames P p (.touch u :: ahead) := by
  rintro (_ | ⟨event, done⟩) source target ahead' heq
  · exact absurd (List.cons.inj heq).1 (by simp)
  · obtain ⟨rfl, rfl⟩ := List.cons.inj heq
    exact h done source target ahead' rfl

/-- What holds at a renaming and at all renamings behind it holds at the renamings from there on. -/
theorem AtRenames.rename {source target : String} (hone : P p source target)
    (h : AtRenames P (p.apply (.rename source target)) ahead) :
    AtRenames P p (.rename source target :: ahead) := by
  rintro (_ | ⟨event, done⟩) source' target' ahead' heq
  · obtain ⟨hrename, _⟩ := List.cons.inj heq
    obtain ⟨rfl, rfl⟩ := Event.rename.inj hrename
    exact hone
  · obtain ⟨rfl, rfl⟩ := List.cons.inj heq
    exact h done source' target' ahead' rfl

end AtRenames

/-- Each rename goes to another path and gives no two units one key. -/
def Separated (p : Pass) (events : List Event) : Prop :=
  AtRenames (fun p source target => source ≠ target ∧ p.registry.Separates source target) p events

/-- A key is followed through a second part from where the first part leaves it. -/
theorem trail_append (done ahead : List Event) (p : Pass) (k : String) :
    trail (done ++ ahead) p k = trail ahead (done.foldl apply p) (trail done p k) := by
  induction done generalizing p k with
  | nil => rfl
  | cons event rest ih => exact ih (p.apply event) (p.advance event k)

/-- The touches of a key in two groups of events: those of the key in the first one, and then those
of the key that it has become. -/
theorem tally_append (done ahead : List Event) (p : Pass) (k : String) :
    tally (done ++ ahead) p k =
      tally done p k + tally ahead (done.foldl apply p) (trail done p k) := by
  induction done generalizing p k with
  | nil => exact (Nat.zero_add _).symm
  | cons event rest ih =>
    rw [List.cons_append, tally, ih, tally, Nat.add_assoc]
    rfl

/-! ## One event -/

section Event

variable {p : Pass} {event : Event}

/-- A touch keeps peers mutual. -/
theorem mutual_touch (hm : p.registry.entries.Mutual) (u : CodeUnit) :
    (p.touch u).registry.entries.Mutual :=
  ⟨hm.symmetric.touch hm.closed u, hm.closed.touch u⟩

/-- One event keeps couplings mutual, if it gives no two keys one key. -/
theorem mutual_apply (hm : p.registry.entries.Mutual) (hsep : p.Separated [event]) :
    (p.apply event).registry.entries.Mutual := by
  cases event with
  | rename source target =>
    obtain ⟨hne, hsep⟩ := hsep [] source target [] rfl
    exact ⟨hm.symmetric.rename hne hsep hm.closed, hm.closed.rename hne hsep hm.symmetric⟩
  | touch u => exact mutual_touch hm u

/-- **A unit that is there is there after the event**, with a count that has grown by its gain. A
touch may raise it by one, and a rename carries the entry over with its count. -/
theorem get?_advance (hm : p.registry.entries.Mutual) (hsep : p.Separated [event]) {k : String}
    {e : Entry} (he : p.registry.entries.get? k = some e) :
    ∃ e', (p.apply event).registry.entries.get? (p.advance event k) = some e' ∧
      e'.count = e.count + p.gain event k := by
  cases event with
  | rename source target =>
    obtain ⟨hne, hsep⟩ := hsep [] source target [] rfl
    exact ⟨_, get?_rename_newKey hne hsep hm.symmetric.reciprocal he, rfl⟩
  | touch u =>
    show ∃ e', (p.touch u).registry.entries.get? k = some e' ∧
      e'.count = e.count + if k = u.key ∧ k ∉ p.touched then 1 else 0
    rw [get?_touch]
    by_cases hk : k = u.key
    · rw [if_pos hk, he]
      refine ⟨_, rfl, ?_⟩
      -- only the first touch of a commit is a gain
      by_cases ht : k ∈ p.touched
      · rw [if_neg fun h => h.2 ht]
        simp [ht]
      · rw [if_pos ⟨hk, ht⟩]
        simp [ht]
    · rw [if_neg hk, if_neg fun h => hk h.1]
      exact ⟨e, he, rfl⟩

/-- A key that has an entry is followed to one that has an entry. -/
theorem advance_mem (hm : p.registry.entries.Mutual) (hsep : p.Separated [event]) {k : String}
    (hk : k ∈ p.registry.entries) : p.advance event k ∈ (p.apply event).registry.entries := by
  obtain ⟨e, he⟩ := SortedMap.mem_iff.mp hk
  obtain ⟨e', he', _⟩ := get?_advance hm hsep he
  exact SortedMap.mem_of_get? he'

/-- One event changes the count of a key, wherever it moves, by what it gains. -/
theorem countAt_advance (hm : p.registry.entries.Mutual) (hsep : p.Separated [event]) {k : String}
    (hk : k ∈ p.registry.entries) :
    (p.apply event).registry.entries.countAt (p.advance event k) =
      p.registry.entries.countAt k + p.gain event k := by
  obtain ⟨e, he⟩ := SortedMap.mem_iff.mp hk
  obtain ⟨e', he', hcount⟩ := get?_advance hm hsep he
  rw [Entries.countAt_of_get? he', Entries.countAt_of_get? he, hcount]

/-- Where no two keys meet, different keys are followed to different keys. -/
theorem advance_inj (hsep : p.Separated [event]) {j k : String} (hj : j ∈ p.registry.entries)
    (hk : k ∈ p.registry.entries) (heq : p.advance event j = p.advance event k) : j = k := by
  cases event with
  | rename source target => exact (hsep [] source target [] rfl).2 j k hj hk heq
  | touch u => exact heq

/-- A unit that is there after the event was there before, or the event is the touch that made
it. -/
theorem mem_apply (hsep : p.Separated [event]) {k' : String}
    (hk' : k' ∈ (p.apply event).registry.entries) :
    (∃ k, k ∈ p.registry.entries ∧ p.advance event k = k') ∨
      ∃ u, event = .touch u ∧ u.key = k' ∧ k' ∉ p.registry.entries := by
  cases event with
  | rename source target =>
    exact Or.inl ((mem_entries_rename (hsep [] source target [] rfl).1).mp hk')
  | touch u =>
    by_cases hold : k' ∈ p.registry.entries
    · exact Or.inl ⟨k', hold, rfl⟩
    · exact Or.inr ⟨u, rfl, ((mem_touch.mp hk').resolve_right hold).symm, hold⟩

end Event

/-! ## Several events -/

section Events

variable {p : Pass} {events : List Event}

/-- **The couplings stay symmetric and refer to units that are there.** The induction is on the
events, each of which keeps couplings mutual. -/
theorem mutual_foldl (hm : p.registry.entries.Mutual) (hsep : p.Separated events) :
    (events.foldl apply p).registry.entries.Mutual := by
  induction events generalizing p with
  | nil => exact hm
  | cons event rest ih => exact ih (mutual_apply hm hsep.head) hsep.tail

/-- No unit becomes a peer of itself. -/
theorem irreflexive_foldl (hm : p.registry.entries.Mutual) (hirr : p.registry.entries.Irreflexive)
    (hsep : p.Separated events) : (events.foldl apply p).registry.entries.Irreflexive := by
  induction events generalizing p with
  | nil => exact hirr
  | cons event rest ih =>
    refine ih (mutual_apply hm hsep.head) ?_ hsep.tail
    cases event with
    | rename source target =>
      obtain ⟨hne, hsep⟩ := hsep [] source target rest rfl
      exact hirr.rename hne hsep hm.symmetric hm.closed
    | touch u => exact hirr.touch u

/-- **Units that are there stay there**, under the keys that their trails lead to. The induction is
on the events, where each unit goes on under the key that the event gives it. -/
theorem trail_mem (hm : p.registry.entries.Mutual) (hsep : p.Separated events) {k : String}
    (hk : k ∈ p.registry.entries) : trail events p k ∈ (events.foldl apply p).registry.entries := by
  induction events generalizing p k with
  | nil => exact hk
  | cons event rest ih =>
    have hone : p.Separated [event] := hsep.head
    exact ih (mutual_apply hm hone) hsep.tail (advance_mem hm hone hk)

/-- **The trails of different units lead to different keys.** One event leads different units to
different keys, and so do all of them. -/
theorem trail_inj (hm : p.registry.entries.Mutual) (hsep : p.Separated events) {j k : String}
    (hj : j ∈ p.registry.entries) (hk : k ∈ p.registry.entries)
    (heq : trail events p j = trail events p k) : j = k := by
  induction events generalizing p j k with
  | nil => exact heq
  | cons event rest ih =>
    have hone : p.Separated [event] := hsep.head
    exact advance_inj hone hj hk (ih (mutual_apply hm hone) hsep.tail (advance_mem hm hone hj)
      (advance_mem hm hone hk) heq)

/-- **The count of a unit grows by its tally.** The tally is the number of events that count it,
each under the key which it has then. -/
theorem countAt_trail (hm : p.registry.entries.Mutual) (hsep : p.Separated events) {k : String}
    (hk : k ∈ p.registry.entries) :
    (events.foldl apply p).registry.entries.countAt (trail events p k) =
      p.registry.entries.countAt k + tally events p k := by
  induction events generalizing p k with
  | nil => rfl
  | cons event rest ih =>
    have hone : p.Separated [event] := hsep.head
    rw [List.foldl_cons, trail, ih (mutual_apply hm hone) hsep.tail (advance_mem hm hone hk),
      countAt_advance hm hone hk, tally, Nat.add_assoc]

/-- **A unit that is there at the end was there at the start, or a touch on the way has made
it.** -/
theorem mem_foldl_apply (hsep : p.Separated events) {k' : String}
    (hk' : k' ∈ (events.foldl apply p).registry.entries) :
    (∃ k, k ∈ p.registry.entries ∧ trail events p k = k') ∨
      ∃ done u ahead, events = done ++ .touch u :: ahead ∧
        u.key ∉ (done.foldl apply p).registry.entries ∧
          trail ahead ((done.foldl apply p).touch u) u.key = k' := by
  induction events generalizing p with
  | nil => exact Or.inl ⟨k', hk', rfl⟩
  | cons event rest ih =>
    rcases ih hsep.tail hk' with ⟨j, hj, htrail⟩ | ⟨done, u, ahead, rfl, hu, htrail⟩
    · -- the unit was there before the first event, or that has made it
      rcases mem_apply hsep.head hj with ⟨k, hk, rfl⟩ | ⟨u, rfl, rfl, hu⟩
      · exact Or.inl ⟨k, hk, htrail⟩
      · exact Or.inr ⟨[], u, rest, rfl, hu, htrail⟩
    · exact Or.inr ⟨event :: done, u, ahead, rfl, hu, htrail⟩

/-! ## Units that are counted twice -/

/-- A unit that is counted has a touch that counts it. -/
theorem exists_touch_of_tally {k : String} (h : 0 < tally events p k) :
    ∃ done u ahead, events = done ++ .touch u :: ahead ∧ trail done p k = u.key ∧
      u.key ∉ (done.foldl apply p).touched ∧
        tally events p k = 1 + tally ahead ((done.foldl apply p).touch u) u.key := by
  induction events generalizing p k with
  | nil => exact absurd h (Nat.lt_irrefl 0)
  | cons event rest ih =>
    by_cases hgain : p.gain event k = 0
    · rw [tally, hgain, Nat.zero_add] at h ⊢
      obtain ⟨done, u, ahead, rfl, htrail, hnew, htally⟩ := ih h
      exact ⟨event :: done, u, ahead, rfl, htrail, hnew, htally⟩
    · -- the first event that counts is at the head
      cases event with
      | rename source target => exact absurd rfl hgain
      | touch u =>
        by_cases hu : k = u.key ∧ k ∉ p.touched
        · obtain ⟨rfl, hnew⟩ := hu
          refine ⟨[], u, rest, rfl, rfl, hnew, ?_⟩
          rw [tally, gain, if_pos ⟨rfl, hnew⟩]
          rfl
        · exact absurd (if_neg hu) hgain

/-- A touch in between moves no key. -/
theorem trail_touch (done ahead : List Event) (u : CodeUnit) (p : Pass) (k : String) :
    trail (done ++ .touch u :: ahead) p k =
      trail ahead ((done.foldl apply p).touch u) (trail done p k) := by
  rw [trail_append]
  rfl

/-- A touch that counts a unit under its key adds a touch to the tally. -/
theorem tally_touch_pos {middle last : List Event} {v : CodeUnit} {k : String}
    (htrail : trail middle p k = v.key) (hnew : v.key ∉ (middle.foldl apply p).touched) :
    0 < tally (middle ++ .touch v :: last) p k := by
  rw [tally_append, htrail, tally, gain, if_pos ⟨rfl, hnew⟩]
  omega

/-- A touch of a unit that is new, or under a key that was not touched before, counts. -/
theorem countAt_touch {u : CodeUnit}
    (h : u.key ∉ p.registry.entries ∨ u.key ∉ p.touched) :
    (p.touch u).registry.entries.countAt u.key = p.registry.entries.countAt u.key + 1 := by
  unfold Entries.countAt
  rw [get?_touch, if_pos rfl]
  cases he : p.registry.entries.get? u.key with
  | none => rfl
  | some e =>
    have ht : u.key ∉ p.touched := h.resolve_left fun hk => hk (SortedMap.mem_of_get? he)
    simp [ht]

/-- Two touches count one unit, which afterwards stands under the given key: the first one makes the
unit or touches it under a key that was not touched before, and so does the second one, under the
key that the unit has by then. -/
def CountsTwice (p : Pass) (events : List Event) (k' : String) : Prop :=
  ∃ first u middle v last, events = first ++ .touch u :: (middle ++ .touch v :: last) ∧
    (u.key ∉ (first.foldl apply p).registry.entries ∨ u.key ∉ (first.foldl apply p).touched) ∧
    let p₁ := (first.foldl apply p).touch u
    let p₂ := middle.foldl apply p₁
    trail middle p₁ u.key = v.key ∧ v.key ∉ p₂.touched ∧ trail last (p₂.touch v) v.key = k'

/-- A unit that stands under the given key at the end has grown by at most one: from its count at
the start, or from nothing if it is new. -/
def GrowsOnce (p : Pass) (events : List Event) (k' : String) (count : Nat) : Prop :=
  (∀ k, k ∈ p.registry.entries → trail events p k = k' → count ≤ p.registry.entries.countAt k + 1) ∧
    ((∀ k, k ∈ p.registry.entries → trail events p k ≠ k') → count ≤ 1)

/-- A unit that a touch counts, and another one counts again later, has grown by two. -/
theorem countAt_of_touches (hm : p.registry.entries.Mutual) {u v : CodeUnit}
    {middle last : List Event} (hsep : (p.touch u).Separated (middle ++ .touch v :: last))
    (hcounts : u.key ∉ p.registry.entries ∨ u.key ∉ p.touched)
    (htrail : trail middle (p.touch u) u.key = v.key)
    (hnew : v.key ∉ (middle.foldl apply (p.touch u)).touched) :
    p.registry.entries.countAt u.key + 2 ≤
      ((middle ++ .touch v :: last).foldl apply (p.touch u)).registry.entries.countAt
        (trail (middle ++ .touch v :: last) (p.touch u) u.key) := by
  have hthere : u.key ∈ (p.touch u).registry.entries := mem_touch.mpr (Or.inl rfl)
  have hpos : 0 < tally (middle ++ .touch v :: last) (p.touch u) u.key :=
    tally_touch_pos htrail hnew
  rw [countAt_trail (mutual_touch hm u) hsep hthere, countAt_touch hcounts]
  omega

/-- A unit that two touches count has grown by more than one. -/
theorem CountsTwice.not_growsOnce {k' : String} (h : p.CountsTwice events k')
    (hm : p.registry.entries.Mutual) (hsep : p.Separated events) :
    ¬ p.GrowsOnce events k' ((events.foldl apply p).registry.entries.countAt k') := by
  obtain ⟨first, u, middle, v, last, rfl, hcounts, htrail, hnew, hlast⟩ := h
  rintro ⟨hold, hfresh⟩
  have hm₁ := mutual_foldl hm hsep.left
  have hsep₁ : ((first.foldl apply p).touch u).Separated (middle ++ .touch v :: last) :=
    hsep.right.tail
  have hend : trail (middle ++ .touch v :: last) ((first.foldl apply p).touch u) u.key = k' := by
    rw [trail_touch, htrail, hlast]
  have hcount := countAt_of_touches hm₁ hsep₁ hcounts htrail hnew
  rw [hend] at hcount
  rw [List.foldl_append] at hold hfresh
  by_cases horigin : ∃ k, k ∈ p.registry.entries ∧ trail first p k = u.key
  · obtain ⟨k, hk, hku⟩ := horigin
    have hgrown := countAt_trail hm hsep.left hk
    rw [hku] at hgrown
    have hle := hold k hk (by rw [trail_touch, hku, hend])
    exact absurd (Nat.le_trans hcount hle) (by omega)
  · -- then the unit is new: no trail from the start can join that of the first touch
    have hle := hfresh fun k hk hkend => horigin ⟨k, hk, by
      rw [trail_touch, ← hend] at hkend
      exact trail_inj (mutual_touch hm₁ u) hsep₁
        (mem_touch.mpr (Or.inr (trail_mem hm hsep.left hk))) (mem_touch.mpr (Or.inl rfl)) hkend⟩
    exact absurd (Nat.le_trans hcount hle) (by omega)

/-- A touch counts a unit, and the unit is counted again on the way that is left. -/
theorem countsTwice_of_touch {first rest : List Event} {u : CodeUnit}
    (hcounts : u.key ∉ (first.foldl apply p).registry.entries ∨
      u.key ∉ (first.foldl apply p).touched)
    (h : 0 < tally rest ((first.foldl apply p).touch u) u.key) :
    p.CountsTwice (first ++ .touch u :: rest)
      (trail rest ((first.foldl apply p).touch u) u.key) := by
  obtain ⟨middle, v, last, rfl, htrail, hnew, _⟩ := exists_touch_of_tally h
  exact ⟨first, u, middle, v, last, rfl, hcounts, htrail, hnew, by rw [trail_touch, htrail]⟩

/-- A key that is touched more than once in a commit counts twice, where it ends. -/
theorem countsTwice_of_tally {k : String} (h : 1 < tally events p k) :
    p.CountsTwice events (trail events p k) := by
  have hpos : 0 < tally events p k := by omega
  obtain ⟨first, u, rest, rfl, htrail, hnew, hone⟩ := exists_touch_of_tally hpos
  rw [trail_touch, htrail]
  exact countsTwice_of_touch (Or.inr hnew) (by omega)

/-- A unit that no two touches count has grown by at most one. -/
theorem growsOnce_of_not_countsTwice (hm : p.registry.entries.Mutual) (hsep : p.Separated events)
    {k' : String} (hk' : k' ∈ (events.foldl apply p).registry.entries)
    (h : ¬ p.CountsTwice events k') :
    p.GrowsOnce events k' ((events.foldl apply p).registry.entries.countAt k') := by
  constructor
  · rintro k hk rfl
    have htally : ¬ 1 < tally events p k := fun htwice => h (countsTwice_of_tally htwice)
    rw [countAt_trail hm hsep hk]
    omega
  · intro hnone
    rcases mem_foldl_apply hsep hk' with ⟨k, hk, hkend⟩ | ⟨first, u, rest, rfl, hu, rfl⟩
    · exact absurd hkend (hnone k hk)
    · -- the unit came in with a touch, which is the only one that counts
      have htally : ¬ 0 < tally rest ((first.foldl apply p).touch u) u.key := fun htwice =>
        h (countsTwice_of_touch (Or.inl hu) htwice)
      have hgrown := countAt_trail (mutual_touch (mutual_foldl hm hsep.left) u) hsep.right.tail
        (mem_touch.mpr (Or.inl rfl))
      rw [countAt_touch (Or.inl hu), Entries.countAt_of_not_mem hu] at hgrown
      rw [List.foldl_append]
      show (rest.foldl apply ((first.foldl apply p).touch u)).registry.entries.countAt _ ≤ 1
      omega

/-- **A unit grows by at most one exactly if no two touches count it.** A unit that is there behind
the events either was there before them, or is new and counts from one. -/
theorem grows_iff (hm : p.registry.entries.Mutual) (hsep : p.Separated events) {k' : String}
    (hk' : k' ∈ (events.foldl apply p).registry.entries) :
    p.GrowsOnce events k' ((events.foldl apply p).registry.entries.countAt k') ↔
      ¬ p.CountsTwice events k' :=
  ⟨fun hgrows htwice => htwice.not_growsOnce hm hsep hgrows,
    growsOnce_of_not_countsTwice hm hsep hk'⟩

end Events

end Pass

end Registry

end CoChange
