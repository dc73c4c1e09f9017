import CoChange.Proofs.Journal.Description

/-!
# A registry matches the journal of its history

An engine that starts empty keeps counts and couplings and never looks back. After any number of
commits of an admissible history these are what the journal of the history says:

* **`Midway.touch`**, **`Midway.rename`**: what holds in the middle of a commit, behind some of its
  events, holds behind one more (`Describes.during`).
* **`Describes.commit`**: so it does after the commit, with the pairs of the commit counted if it is
  small.
* **`tracks_run`**: so it is after a whole history, merges that come again passed over.
* **`matches_journal`**: what this says about the entries, for every beginning of the history.
-/

namespace CoChange

/-! ## The order of events in a commit

A commit that names no path twice touches units of a file only after it has renamed the file. The
positions that it notes are therefore never carried along by one of its renames. -/

/-- The later event does not rename the file of a unit that the first one touches. -/
def Event.LeavesAlone (first later : Event) : Prop :=
  ∀ u source target, first = .touch u → later = .rename source target → u.file ≠ source

/-- A change that touches a unit names the path of the unit. -/
theorem Change.target_mem_paths {q : UnitQuery} {c : Change} {u : CodeUnit} (h : u ∈ c.units q) :
    c.target ∈ c.paths := by
  unfold Change.units at h
  unfold Change.paths
  cases hk : c.kind with
  | inserted => exact List.mem_singleton.mpr rfl
  | modified => exact List.mem_cons_of_mem _ (List.mem_singleton.mpr rfl)
  | deleted => rw [hk] at h; exact absurd h (by simp)
  | untracked => rw [hk] at h; exact absurd h (by simp)

theorem Change.source_mem_paths {c : Change} (h : c.isRename = true) : c.source ∈ c.paths := by
  unfold Change.paths
  rw [(Change.kind_of_isRename h).1]
  exact List.mem_cons_self

/-- The events of a single change: its rename comes first. -/
theorem Change.pairwise_events (q : UnitQuery) (c : Change) :
    (c.events q).Pairwise Event.LeavesAlone := by
  unfold Change.events
  rw [List.pairwise_append]
  refine ⟨?_, ?_, ?_⟩
  · cases c.isRename <;> simp
  · rw [List.pairwise_map]
    exact List.pairwise_of_forall fun _ _ u source target _ hrename => absurd hrename (by simp)
  · intro a ha b _ u source target htouch
    rw [htouch] at ha
    cases hr : c.isRename <;> simp [hr] at ha

/-- **No commit that names no path twice renames the file of a unit that it has touched.** A touch
that comes before a rename is of another change, or of a path that is not the old one. -/
theorem Commit.NamesApart.pairwise_events {c : Commit} (h : c.NamesApart) (q : UnitQuery) :
    (c.events q).Pairwise Event.LeavesAlone := by
  unfold Commit.events
  rw [List.pairwise_flatMap]
  refine ⟨fun ch _ => ch.pairwise_events q, h.imp fun {a b} hab => ?_⟩
  rintro first hfirst later hlater u source target rfl rfl
  have hu := Change.touch_mem_events.mp hfirst
  obtain ⟨hr, rfl, _⟩ := Change.rename_mem_events.mp hlater
  rw [Change.file_of_mem_units hu]
  exact fun heq => hab a.target (Change.target_mem_paths hu) (heq ▸ Change.source_mem_paths hr)

/-! ## One commit -/

/-- Behind some events of the commit at a position, the registry is described by the journal, and
exactly the units that were touched so far have the position. -/
structure Midway (counted : Nat → Bool) (i : Nat) (done : List Event) (J : Journal) (r : Registry) :
    Prop where
  describes : Describes counted J r
  noted : ∀ u, J.Noted i u ↔ .touch u ∈ done

namespace Midway

variable {counted : Nat → Bool} {i : Nat} {done : List Event} {J : Journal}

/-- **One more touch.** No other unit that is there may have the key of the touched one. Then the
entry under its key, if there is one, is its own, and its count grows by the new position. -/
theorem touch {p : Registry.Pass} (h : Midway counted i done J p.registry)
    (hi : counted i = false) (htouched : ∀ k, k ∈ p.touched ↔ ∃ u, .touch u ∈ done ∧ u.key = k)
    {u : CodeUnit} (hkey : ∀ v, (J v).isSome = true → v.key = u.key → v = u) :
    Midway counted i (done ++ [.touch u]) (J.touch i u) (p.touch u).registry where
  describes := by
    refine h.describes.touch hi hkey fun S hS => ?_
    rw [htouched]
    constructor
    · -- a touched unit with the key of this one is this one
      rintro ⟨v, hv, hvk⟩
      obtain ⟨T, hT, hiT⟩ := (h.noted v).mpr hv
      have hvu : v = u := hkey v (Option.isSome_of_eq_some hT) hvk
      rw [hvu, hS] at hT
      rwa [Option.some.inj hT]
    · exact fun hiS => ⟨u, (h.noted u).mp ⟨S, hS, hiS⟩, rfl⟩
  noted := fun v => by
    rw [Journal.noted_touch, h.noted, List.mem_append, List.mem_singleton, Event.touch.injEq]
    exact or_comm

/-- **One more rename.** It may not move what was touched before, since the position would go with
it. -/
theorem rename {r : Registry} (h : Midway counted i done J r) {source target : String}
    (hne : source ≠ target) (hfree : ∀ u : CodeUnit, u.file = target → J u = none)
    (hkey : ∀ u v, (J.rename source target u).isSome = true →
      (J.rename source target v).isSome = true → u.key = v.key → u = v)
    (halone : ∀ u, .touch u ∈ done → u.file ≠ source) :
    Midway counted i (done ++ [.rename source target]) (J.rename source target)
      (r.rename source target) where
  describes := h.describes.rename hne hfree hkey
  noted := fun v => by
    rw [Journal.noted_rename (fun u hu => halone u ((h.noted u).mp hu)) hfree, h.noted,
      List.mem_append, List.mem_singleton, or_iff_left (by simp)]

end Midway

namespace Describes

section Commit

variable {q : UnitQuery} {cap : Nat} {commits before after : List Commit} {c : Commit}
    {r : Registry}
  {counted : Nat → Bool}

/-- **In the middle of a commit the registry is described by the journal.** The induction is on the
events that were applied. What each of them asks for is what the history is asked for at that
moment. -/
theorem during (hadm : Admissible q commits) (hsplit : commits = before ++ c :: after)
    (hskip : (Chronicle.of q before).skips c = false)
    (h : Describes counted (Chronicle.of q before).journal r)
    (hi : counted before.length = false) {done ahead : List Event}
    (hevents : c.events q = done ++ ahead) :
    Midway counted before.length done (Chronicle.during q before done)
      (done.foldl Registry.Pass.apply ⟨r, ∅⟩).registry := by
  induction done using List.reverseRecOn generalizing ahead with
  | nil =>
    refine ⟨h, fun u => iff_of_false (fun hu => ?_) (List.not_mem_nil)⟩
    exact absurd (Chronicle.below_of q before _ u hu) (Nat.lt_irrefl _)
  | append_singleton done event ih =>
    rw [List.append_assoc, List.singleton_append] at hevents
    have hmid := ih hevents
    have hreach : Reaches q commits (Chronicle.during q before done) (event :: ahead) :=
      ⟨before, c, after, done, hsplit, hskip, hevents, rfl⟩
    have hnext : Reaches q commits ((Chronicle.during q before done).apply before.length event)
        ahead := by
      refine ⟨before, c, after, done ++ [event], hsplit, hskip, ?_, ?_⟩
      · rw [hevents, List.append_assoc, List.singleton_append]
      · rw [Chronicle.during_append_singleton]
    rw [Chronicle.during_append_singleton, List.foldl_append, List.foldl_cons, List.foldl_nil]
    cases event with
    | touch u =>
      have hthere : (((Chronicle.during q before done).touch before.length u) u).isSome = true := by
        simp [Journal.touch]
      refine hmid.touch hi (fun k => ?_) fun v hv hvu => ?_
      · rw [Registry.Pass.mem_touched_foldl, or_iff_left (SortedMap.not_mem_empty _)]
      · -- another unit with the key of this one would occur beside it
        exact hadm.distinct v u ⟨_, _, hreach, hv⟩ ⟨_, _, hnext, hthere⟩ hvu
    | rename source target =>
      have hmem : .rename source target ∈ c.events q :=
        hevents ▸ List.mem_append_right _ List.mem_cons_self
      have hpairs := (hadm.apart c (hsplit ▸ List.mem_append_right _ List.mem_cons_self))
        |>.pairwise_events q
      rw [hevents, List.pairwise_append] at hpairs
      refine hmid.rename (Commit.ne_of_rename_mem_events hmem)
        (hadm.untracked _ source target ahead hreach) (fun u v hu hv => ?_) fun u hu => ?_
      · exact hadm.distinct u v ⟨_, _, hnext, hu⟩ ⟨_, _, hnext, hv⟩
      · exact hpairs.2.2 _ hu _ List.mem_cons_self u source target rfl rfl

/-- The touched keys of a commit are as many as its touched units if these are told apart by their
keys. -/
theorem withinCap_eq_isSmall {touched : SortedSet String}
    (htouched : ∀ k, k ∈ touched ↔ ∃ u, u ∈ c.touchedUnits q ∧ u.key = k)
    (hinj : ∀ u v, u ∈ c.touchedUnits q → v ∈ c.touchedUnits q → u.key = v.key → u = v) :
    Registry.withinCap cap touched = c.isSmall q cap := by
  have hkeys : touched.keys.toFinset = (c.touchedUnits q).image CodeUnit.key := by
    refine Finset.ext fun k => ?_
    rw [List.mem_toFinset, SortedMap.mem_keys, htouched, Finset.mem_image]
  have hsize : touched.size = (c.touchedUnits q).card := by
    rw [SortedMap.size_eq_length_keys, ← List.toFinset_card_of_nodup (SortedMap.nodup_keys touched),
      hkeys, Finset.card_image_of_injOn fun u hu v hv => hinj u v hu hv]
  rw [Registry.withinCap, Commit.isSmall, hsize]

/-- Which positions are counted matters only where they are noted. -/
theorem congr_counted {counted' : Nat → Bool} {J : Journal} {n : Nat} (h : Describes counted J r)
    (hbelow : J.Below n) (hsame : ∀ s, s < n → counted s = counted' s) :
    Describes counted' J r where
  entry := h.entry
  unit := h.unit
  pair := fun u v S T hu hv huv => by
    rw [h.pair u v S T hu hv huv, shared, shared]
    refine congrArg (fun F => peerNumber (Finset.card F)) (Finset.filter_congr fun s hs => ?_)
    rw [hsame s (hbelow s u ⟨S, hu, (Finset.mem_inter.mp hs).1⟩)]
  coherent := h.coherent
  indexed := h.indexed

end Commit

end Describes

/-- One more commit is small at its own position if few enough units are touched by it. It says
nothing about the earlier positions. -/
theorem smallAt_append_singleton (q : UnitQuery) (cap : Nat) (before : List Commit) (c : Commit)
    (s : Nat) :
    smallAt q cap (before ++ [c]) s =
      (smallAt q cap before s || (s == before.length && c.isSmall q cap)) := by
  unfold smallAt
  rcases Nat.lt_trichotomy s before.length with hlt | rfl | hgt
  · rw [List.getElem?_append_left hlt]
    have hne : (s == before.length) = false := by simp [Nat.ne_of_lt hlt]
    rw [hne, Bool.false_and, Bool.or_false]
  · simp
  · have hne : (s == before.length) = false := by simp [Nat.ne_of_gt hgt]
    rw [hne, Bool.false_and, Bool.or_false, List.getElem?_eq_none (by simp; omega),
      List.getElem?_eq_none (Nat.le_of_lt hgt)]

/-- **A commit that is not passed over makes the step of the journal.** Its events are followed by
the pairs, which raise couplings by its position, and by the deletions. -/
theorem Describes.commit {q : UnitQuery} {cap : Nat} {commits before after : List Commit}
    {c : Commit}
    {r : Registry} (hadm : Admissible q commits) (hsplit : commits = before ++ c :: after)
    (hskip : (Chronicle.of q before).skips c = false)
    (h : Describes (smallAt q cap before) (Chronicle.of q before).journal r) :
    Describes (smallAt q cap (before ++ [c])) ((Chronicle.of q before).record q c)
      (Engine.applyCommit q cap r c).registry := by
  have hi : smallAt q cap before before.length = false := by simp [smallAt]
  obtain ⟨hd, hnoted⟩ := h.during hadm hsplit hskip hi (List.append_nil _).symm
  have htouched : ∀ k, k ∈ (Engine.passOf q r c).touched ↔
      ∃ u, (Chronicle.during q before (c.events q)).Noted before.length u ∧ u.key = k := by
    intro k
    rw [Engine.passOf, Registry.Pass.mem_touched_foldl, or_iff_left (SortedMap.not_mem_empty _)]
    simp only [hnoted]
  have hunits : ∀ u, (Chronicle.during q before (c.events q)).Noted before.length u ↔
      u ∈ c.touchedUnits q := by
    intro u
    rw [hnoted, Commit.touch_mem_events, Commit.touchedUnits, List.mem_toFinset]
  -- as many keys are touched as units
  have hcap : Registry.withinCap cap (Engine.passOf q r c).touched = c.isSmall q cap := by
    refine Describes.withinCap_eq_isSmall (fun k => ?_) fun u v hu hv => ?_
    · simp only [htouched, hunits]
    · obtain ⟨S, hS, _⟩ := (hunits u).mpr hu
      obtain ⟨T, hT, _⟩ := (hunits v).mpr hv
      exact hd.key_inj (Option.isSome_of_eq_some hS) (Option.isSome_of_eq_some hT)
  rw [Engine.applyCommit_eq, Chronicle.record_of, Journal.clear_eq_foldl]
  refine Describes.removeFiles ?_ _
  rw [funext (smallAt_append_singleton q cap before c), Registry.coupleWithin, hcap]
  cases c.isSmall q cap with
  | false =>
    simp only [Bool.and_false, Bool.or_false, Bool.false_eq_true, if_false]
    exact hd
  | true =>
    simp only [Bool.and_true, if_true]
    exact hd.couple hi htouched

/-! ## A whole history -/

/-- The engine has gone through the history: its log has the merges of the chronicle, and its
registry is described by the journal. -/
structure Tracks (q : UnitQuery) (cap : Nat) (commits : List Commit) (e : Engine) : Prop where
  query_eq : e.query = q
  cap_eq : e.cap = cap
  merges : ∀ hash, hash ∈ e.merges.seen.getD ∅ ↔ hash ∈ (Chronicle.of q commits).merges
  describes : Describes (smallAt q cap commits) (Chronicle.of q commits).journal e.registry

theorem Tracks.takes {q : UnitQuery} {cap : Nat} {commits : List Commit} {e : Engine}
    (h : Tracks q cap commits e) (c : Commit) : e.takes c = !(Chronicle.of q commits).skips c := by
  rw [Engine.takes_eq, Chronicle.skips]
  simp only [h.merges]

/-- **A further commit.** A merge that comes again is passed over on both sides, and any other
commit makes its step. -/
theorem Tracks.step {q : UnitQuery} {cap : Nat} {before : List Commit} {c : Commit} {e : Engine}
    (h : Tracks q cap before e) (hadm : Admissible q (before ++ [c])) :
    Tracks q cap (before ++ [c]) (e.step c) where
  query_eq := by rw [Engine.query_step, h.query_eq]
  cap_eq := by rw [Engine.cap_step, h.cap_eq]
  merges hash := by
    rw [Engine.mem_seen_step, h.merges, Chronicle.of_append_singleton, Chronicle.step]
    by_cases hs : (Chronicle.of q before).skips c = true
    · -- a merge that is passed over is in the log already
      rw [if_pos hs]
      have hmem : c.hash ∈ (Chronicle.of q before).merges := by
        rw [Chronicle.skips, Bool.and_eq_true, decide_eq_true_iff] at hs
        exact hs.2
      exact or_iff_right_of_imp fun hh => hh.2 ▸ hmem
    · rw [if_neg hs]
      cases hm : c.isMerge <;> simp
  describes := by
    rw [Engine.registry_step, h.takes c, Chronicle.of_append_singleton, Chronicle.step, h.query_eq,
      h.cap_eq]
    cases hs : (Chronicle.of q before).skips c with
    | true =>
      -- its position is counted from now on, but no unit has it
      simp only [Bool.not_true, Bool.false_eq_true, if_false, if_true]
      refine h.describes.congr_counted (Chronicle.below_of q before) fun s hs => ?_
      have hne : (s == before.length) = false := by simp [Nat.ne_of_lt hs]
      rw [smallAt_append_singleton, hne, Bool.false_and, Bool.or_false]
    | false =>
      simp only [Bool.not_false, if_true, Bool.false_eq_true, if_false]
      have hsplit : before ++ [c] = before ++ c :: [] := rfl
      exact h.describes.commit hadm hsplit hs

/-- **An engine that starts empty tracks every admissible history.** The induction is on the
history, from its end. -/
theorem tracks_run {q : UnitQuery} {cap : Nat} {commits : List Commit} (h : Admissible q commits) :
    Tracks q cap commits ((Engine.new q cap).run commits) := by
  induction commits using List.reverseRecOn with
  | nil => exact ⟨rfl, rfl, fun hash =>
      by simp [Chronicle.of, Chronicle.empty, Engine.run, Engine.new,
      MergeLog.empty, SortedMap.not_mem_empty], .empty⟩
  | append_singleton before c ih =>
    rw [Engine.run_append]
    exact (ih h.of_append).step h

/-- What a journal of a history, of which the small commits are counted, says about a registry. -/
structure Registry.Matches (q : UnitQuery) (cap : Nat) (commits : List Commit) (J : Journal)
    (r : Registry) : Prop where
  /-- Each unit that is there has exactly one entry. -/
  one : ∀ u, (J u).isSome = true → ∃! k, ∃ e, r.entries.get? k = some e ∧ e.unit = u
  /-- Each entry is of a unit that is there and stands under its key. -/
  live : ∀ k e, r.entries.get? k = some e → (J e.unit).isSome = true ∧ k = e.unit.key
  /-- The count of an entry is the number of positions of its unit. -/
  count : ∀ k e S, r.entries.get? k = some e → J e.unit = some S → e.count = S.card
  /-- A unit is a peer of another one exactly if they share a small commit; the number is that of
  the commits that they share. -/
  couples : ∀ k e S v T, r.entries.get? k = some e → J e.unit = some S → J v = some T → v ≠ e.unit →
    e.couples.get? v.key = peerNumber (commonCommits q cap commits S T).card
  /-- All peers are other units that are there. -/
  peers : ∀ k e p, r.entries.get? k = some e → p ∈ e.couples →
    ∃ v, (J v).isSome = true ∧ v ≠ e.unit ∧ v.key = p

/-- A registry that a journal describes matches it, part by part: what is there, the counts, the
index and the peers. -/
theorem Describes.matches {q : UnitQuery} {cap : Nat} {commits : List Commit} {J : Journal}
    {r : Registry} (h : Describes (smallAt q cap commits) J r) : r.Matches q cap commits J where
  one := fun u hu => by
    obtain ⟨S, hS⟩ := Option.isSome_iff_exists.mp hu
    obtain ⟨e, he, hunit, _⟩ := h.entry u S hS
    refine ⟨u.key, ⟨e, he, hunit⟩, fun k ⟨e', he', hunit'⟩ => ?_⟩
    rw [← (h.unit k e' he').1, hunit']
  live := fun k e he => ⟨(h.unit k e he).2, (h.unit k e he).1.symm⟩
  count := fun k e S he hS => by
    obtain ⟨e', he', _, hcount⟩ := h.entry e.unit S hS
    rw [(h.unit k e he).1, he] at he'
    rw [Option.some.inj he', hcount]
  couples := fun k e S v T he hS hT hne => by
    have hpair := h.pair e.unit v S T hS hT hne.symm
    rw [(h.unit k e he).1, Entries.coupling_of_get? he] at hpair
    exact hpair
  peers := fun k e p he hp => by
    obtain ⟨n, hn⟩ := SortedMap.mem_iff.mp hp
    have hcoupling : r.entries.coupling k p = some n := by rw [Entries.coupling_of_get? he, hn]
    obtain ⟨v, hv, hvp⟩ := h.mem_entries_iff.mp (h.coherent.closed k p n hcoupling)
    -- a unit is not its own peer
    refine ⟨v, hv, fun heq => ?_, hvp⟩
    have hself : p = k := by rw [← hvp, heq, (h.unit k e he).1]
    rw [hself, h.coherent.irreflexive k] at hcoupling
    exact absurd hcoupling (by simp)

/-- **After every beginning of an admissible history, the registry of an engine that started empty
holds what the journal says.** -/
theorem matches_journal (q : UnitQuery) (cap : Nat) (commits before : List Commit)
    (hadm : Admissible q commits) (hbefore : before <+: commits) :
    ((Engine.new q cap).run before).registry.Matches q cap before
      (Chronicle.of q before).journal := by
  obtain ⟨more, rfl⟩ := hbefore
  exact (tracks_run hadm.of_append).describes.matches

/-! ### A small history

A file with two functions is added; then it is renamed and one of them is edited. -/

namespace Sample

/-- Both functions in both files. -/
def units : List CodeUnit :=
  [unit "bar" "a.go", unit "foo" "a.go", unit "bar" "b.go", unit "foo" "b.go"]

theorem keeps_units : ∀ c ∈ [first, second], ∀ event ∈ c.events query, event.Keeps (· ∈ units) := by
  simp only [List.forall_mem_cons, events_first, events_second, Event.Keeps]
  have hrelocated : ∀ u ∈ units, u.relocated "b.go" ∈ units := by decide
  exact ⟨⟨by decide, by decide, by simp⟩, ⟨hrelocated, by decide, by simp⟩, by simp⟩

/-- The two sample commits satisfy what histories are asked for. -/
theorem admissible : Admissible query [first, second] where
  apart := by
    simp only [List.forall_mem_cons, Commit.NamesApart, first, second, List.pairwise_singleton]
    exact ⟨trivial, trivial, by simp⟩
  distinct := fun u v ⟨_, _, hJ, hu⟩ ⟨_, _, hJ', hv⟩ => by
    have hdistinct : ∀ u ∈ units, ∀ v ∈ units, u.key = v.key → u = v := by decide
    exact hdistinct u (hJ.all keeps_units u hu) v (hJ'.all keeps_units v hv)
  untracked := by
    rintro J source target ahead ⟨before, c, after, done, hsplit, _, hevents, rfl⟩ u hu
    rcases before with _ | ⟨b, _ | ⟨b', before⟩⟩
    · -- the first commit renames nothing
      obtain ⟨rfl, _⟩ := List.cons.inj hsplit
      have hmem : Event.rename source target ∈ first.events query := by simp [hevents]
      exact absurd hmem (by simp [events_first])
    · -- the second one comes upon units of the old file only
      simp only [List.cons_append, List.nil_append, List.cons.injEq] at hsplit
      obtain ⟨rfl, rfl, _⟩ := hsplit
      have hmem : Event.rename source target ∈ second.events query := by simp [hevents]
      rcases done with _ | ⟨event, done⟩
      · have hold : (Chronicle.of query [first]).journal.All (·.file = "a.go") :=
          Chronicle.all_of (by simp [events_first, Event.Keeps, unit])
        simp only [events_second, List.mem_cons, Event.rename.injEq, reduceCtorEq, List.not_mem_nil,
          or_false] at hmem
        refine Option.not_isSome_iff_eq_none.mp fun hsome => ?_
        have hfile : u.file = "a.go" := hold u hsome
        rw [hu, hmem.2] at hfile
        exact absurd hfile (by decide)
      · rw [events_second, List.cons_append, List.cons.injEq] at hevents
        have hlater : Event.rename source target ∈ [Event.touch (unit "foo" "b.go")] := by
          simp [hevents.2]
        exact absurd hlater (by simp)
    · simp at hsplit

end Sample

/-- The registry after the two sample commits matches the journal of both. -/
theorem matches_journal_sample :
    Admissible Sample.query [Sample.first, Sample.second] ∧
      [Sample.first, Sample.second] <+: [Sample.first, Sample.second] ∧
      ((Engine.new Sample.query 0).run [Sample.first, Sample.second]).registry.Matches
        Sample.query 0
        [Sample.first, Sample.second]
        (Chronicle.of Sample.query [Sample.first, Sample.second]).journal :=
  ⟨Sample.admissible, List.prefix_rfl,
    matches_journal _ 0 _ _ Sample.admissible List.prefix_rfl⟩

end CoChange
