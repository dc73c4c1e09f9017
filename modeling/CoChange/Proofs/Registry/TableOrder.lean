import CoChange.Proofs.Journal.Refinement
import CoChange.Proofs.Registry.Bare
import CoChange.Proofs.Registry.TouchSet

/-!
# The orders of hash tables

A rename walks through hash tables: that of the keys that move, and for each entry that it visits
that of its peers. In which order a table lists what is in it cannot be told, and it shows where
several keys become one: then the last of them wins. A rename is *unambiguous* if it gives no two of
the units that it moves one key, and no two peers of any one entry (`Registry.Unambiguous`). Then
all orders leave the same:

* **`Registry.renameIn_eq_rename`**, **`Engine.stepIn_eq_step`**, **`Engine.runIn_eq_run`**: so it
  is for one rename, for a commit and for a run.
* **`Engine.unambiguous_of_keepsApart`**: a run is of this kind if it keeps its units apart and none
  of its commits names a path twice.
* **`Engine.bare_runIn_eq_bare_run`**: for what is left of an engine without couplings it is enough
  that the units that the run meets have different keys.
-/

namespace CoChange

namespace Registry

variable {source target : String} {r : Registry}

/-- A rename gives no two of the units that it moves one key, and no two peers of any one entry. -/
structure Unambiguous (source target : String) (r : Registry) : Prop where
  units : ∀ j k, j ∈ r.moves source target → k ∈ r.moves source target →
    r.newKey source target j = r.newKey source target k → j = k
  peers : ∀ i e, r.entries.get? i = some e → ∀ j k, j ∈ e.couples → k ∈ e.couples →
    r.newKey source target j = r.newKey source target k → j = k

/-- **A rename that keeps all units apart is unambiguous**, if all peers are units that are
there. -/
theorem unambiguous_of_separates (hsep : r.Separates source target) (hclosed : r.entries.Closed) :
    r.Unambiguous source target where
  units := hsep.overlays.inj
  peers i e he j k hj hk := by
    have hthere {peer : String} (hpeer : peer ∈ e.couples) : peer ∈ r.entries := by
      obtain ⟨n, hn⟩ := SortedMap.mem_iff.mp hpeer
      exact hclosed i peer n (by rw [Entries.coupling_of_get? he, hn])
    exact hsep j k (hthere hj) (hthere hk)

/-! ## Renames in any order -/

section Orders

variable (o : TableOrder)

theorem perm_movedEntries :
    (r.movedEntries o source target).Perm (r.movedEntries .byKey source target) :=
  (perm_unitsInOrder o source r).map _

theorem affected_eq : r.affected o source target = r.affected .byKey source target :=
  SortedSet.ext_mem fun _ => by
    rw [affected, affected, SortedSet.mem_ofList, SortedSet.mem_ofList]
    exact ((perm_unitsInOrder o source r).flatMap_right _).mem_iff

theorem bucket_eq : r.bucket o source target = r.bucket .byKey source target :=
  SortedSet.ext_mem fun _ => by
    rw [bucket, bucket, SortedSet.mem_foldl_insert, SortedSet.mem_foldl_insert,
      ((perm_movedEntries o).map _).mem_iff]

/-- Moved entries that get different keys can be put back in any order. -/
theorem shifted_eq
    (hinj : ∀ j k, j ∈ r.moves source target → k ∈ r.moves source target →
      r.newKey source target j = r.newKey source target k → j = k) :
    r.shifted o source target = r.shifted .byKey source target := by
  have hrest : (r.unitsInOrder o source).foldl (fun m u => m.erase u.1) r.entries =
      (r.unitsInOrder .byKey source).foldl (fun m u => m.erase u.1) r.entries := by
    refine SortedMap.ext_get? fun k => ?_
    rw [SortedMap.get?_foldl_erase, SortedMap.get?_foldl_erase]
    simp only [((perm_unitsInOrder o source r).map Prod.fst).mem_iff]
    rfl
  rw [shifted, shifted, hrest]
  exact SortedMap.foldl_insert_perm (perm_movedEntries o) (nodup_movedEntries hinj) _

/-- An entry that was put back, or has stayed, has the peers of an entry from before. -/
theorem couples_of_shifted {o : TableOrder} {k : String} {e : Entry}
    (h : (r.shifted o source target).get? k = some e) :
    ∃ i d, r.entries.get? i = some d ∧ e.couples = d.couples := by
  rw [shifted] at h
  rcases SortedMap.get?_foldl_insert_cases h with hmoved | hstayed
  · obtain ⟨u, hu, heq⟩ := List.mem_map.mp hmoved
    obtain ⟨-, rfl⟩ := Prod.mk.inj heq
    exact ⟨u.1, u.2, (mem_unitsInOrder.mp hu).2, rfl⟩
  · rw [SortedMap.get?_foldl_erase] at hstayed
    split at hstayed
    · cases hstayed
    · exact ⟨k, e, hstayed, rfl⟩

/-- **An unambiguous rename leaves the same in all orders.** The moved entries get different keys,
and so do the peers of each entry; maps that are filled in either order are the same. -/
theorem renameIn_eq_rename (h : r.Unambiguous source target) :
    r.renameIn o source target = r.rename source target := by
  by_cases hne : source = target
  · rw [hne, renameIn_self, rename_self]
  cases hfile : r.files.get? source with
  | none => rw [renameIn_of_none o hfile, rename_of_none hfile]
  | some keys =>
    rw [renameIn_of_some o hne hfile, rename_of_some hne hfile, bucket_eq, affected_eq,
      shifted_eq o h.units]
    refine congrArg (Registry.mk · _) (SortedMap.ext_get? fun k => ?_)
    rw [SortedMap.get?_mapValues, SortedMap.get?_mapValues]
    refine Option.map_congr fun e he => ?_
    -- the peers of an entry that is visited are those of an entry from before
    obtain ⟨i, d, hd, hcouples⟩ := couples_of_shifted he
    have hpeers := relabelIn_eq (o.perm_peers k) (hcouples ▸ h.peers i d hd)
    unfold relabelEntry relabelEntryIn
    rw [hpeers]
    rfl

end Orders

/-! ## Events in any order -/

namespace Pass

variable {p : Pass} {events : List Event}

/-- If the event is a rename, it is unambiguous. -/
def Unambiguous (p : Pass) : Event → Prop
  | .touch _ => True
  | .rename source target => p.registry.Unambiguous source target

/-- An unambiguous event does the same in any order of the tables. -/
theorem applyIn_eq_apply {event : Event} (h : p.Unambiguous event) (o : TableOrder) :
    p.applyIn o event = p.apply event := by
  cases event with
  | touch u => rfl
  | rename source target =>
    exact congrArg (Pass.mk · p.touched) (renameIn_eq_rename o h)

/-- Unambiguous events do the same one after the other. The induction is on the events. -/
theorem foldl_applyIn_eq (h : ∀ visit ∈ p.visits events, visit.1.Unambiguous visit.2)
    (o : TableOrder) : events.foldl (applyIn o) p = events.foldl apply p := by
  induction events generalizing p with
  | nil => rfl
  | cons event rest ih =>
    rw [visits, List.forall_mem_cons] at h
    rw [List.foldl_cons, List.foldl_cons, applyIn_eq_apply h.1, ih h.2]

/-- What holds at each rename holds where it is visited. -/
theorem AtRenames.of_visit {P : Pass → String → String → Prop} (h : AtRenames P p events)
    {before : Pass} {source target : String}
    (hv : (before, .rename source target) ∈ p.visits events) :
    P before source target := by
  induction events generalizing p with
  | nil => exact absurd hv List.not_mem_nil
  | cons event rest ih =>
    rcases List.mem_cons.mp hv with heq | hv
    · obtain ⟨rfl, rfl⟩ := Prod.mk.inj heq
      exact h [] source target rest rfl
    · exact ih h.tail hv

/-- **No rename moves what was touched before**, if none is of a file with a touched unit and units
have different keys: under a touched key stands the unit that was touched. -/
theorem touchedStay_of_leavesAlone (h : p.registry.Regular) (hnew : ∀ k, k ∉ p.touched)
    (hne : ∀ source target, .rename source target ∈ events → source ≠ target)
    (hapart : CodeUnit.KeysApart ((p.visits events).flatMap fun visit => visit.1.met visit.2))
    (halone : events.Pairwise Event.LeavesAlone) : p.TouchedStay events := by
  have hmet (before : Pass) (event : Event) (hv : (before, event) ∈ p.visits events) {u : CodeUnit}
      (hu : u ∈ before.met event) :
      u ∈ (p.visits events).flatMap fun visit => visit.1.met visit.2 :=
    List.mem_flatMap.mpr ⟨(before, event), hv, hu⟩
  intro done source target ahead heq k hk hm
  obtain ⟨u, hu, rfl⟩ := (mem_touched_foldl.mp hk).resolve_right (hnew k)
  have hregular : (done.foldl apply p).registry.Regular :=
    regular_before h hne (fun visit hv => hapart.mono fun _ hu => hmet _ _ hv hu) heq
  obtain ⟨d, hd, hfile⟩ := (hregular.indexed source u.key).mp (mem_moves.mp hm).1
  have hkey : d.unit.key = u.key := hregular.keyed u.key d.unit d.count (tally_of_get? hd)
  -- the touch has met the touched unit, and the rename meets the one under its key
  have htouched : u ∈ (p.visits events).flatMap fun visit => visit.1.met visit.2 := by
    obtain ⟨before, hbefore⟩ := exists_mem_visits (p := p) hu
    refine hmet before (.touch u) ?_ (List.mem_append_right _ List.mem_cons_self)
    rw [heq, visits_append]
    exact List.mem_append_left _ hbefore
  have htracked : d.unit ∈ (p.visits events).flatMap fun visit => visit.1.met visit.2 := by
    refine hmet (done.foldl apply p) (.rename source target) ?_
      (List.mem_append_left _ (mem_tracked hd))
    rw [heq, visits_append]
    exact List.mem_append_right _ List.mem_cons_self
  have hsame : d.unit = u := hapart d.unit htracked u htouched hkey
  rw [heq, List.pairwise_append] at halone
  exact halone.2.2 _ hu _ List.mem_cons_self u source target rfl rfl (hsame ▸ hfile)

end Pass

end Registry

/-! ## Commits and runs in any order -/

/-- All tables are walked through against the order of their keys. -/
def TableOrders.backwards : TableOrders := fun _ _ =>
  ⟨List.reverse, fun _ => List.reverse, List.reverse_perm, fun _ => List.reverse_perm⟩

/-- The orders of one run up to a place of the history, and those of another one from there on. -/
def TableOrders.upTo (m : Nat) (orders later : TableOrders) : TableOrders :=
  fun n => if n < m then orders n else later n

namespace Engine

open Registry

section Changes

variable {q : UnitQuery} {r : Registry} {c : Commit}

/-- **If all its renames are unambiguous, a commit leaves the same in all orders.** The induction is
on the changes, and each rename is met by the same pass in all orders. -/
theorem passIn_eq_passOf
    (h : ∀ visit ∈ Pass.visits ⟨r, ∅⟩ (c.events q), visit.1.Unambiguous visit.2)
    (orders : Nat → TableOrder) : passIn orders q r c = passOf q r c := by
  -- over the changes that are left, from what the ones before them have led to
  have hfrom (changes : List (Change × Nat)) (p : Pass)
      (h : ∀ visit ∈ p.visits ((changes.map Prod.fst).flatMap (·.events q)),
        visit.1.Unambiguous visit.2) :
      changes.foldl (fun p x => (x.1.events q).foldl (Pass.applyIn (orders x.2)) p) p =
        ((changes.map Prod.fst).flatMap (·.events q)).foldl Pass.apply p := by
    induction changes generalizing p with
    | nil => rfl
    | cons x rest ih =>
      rw [List.map_cons, List.flatMap_cons, Pass.visits_append, List.forall_mem_append] at h
      rw [List.foldl_cons, List.map_cons, List.flatMap_cons, List.foldl_append,
        Pass.foldl_applyIn_eq h.1, ih _ h.2]
  have hchanges : c.changes.zipIdx.map Prod.fst = c.changes := List.zipIdx_map_fst 0 c.changes
  have hall := hfrom c.changes.zipIdx ⟨r, ∅⟩ (by rwa [hchanges])
  rwa [hchanges] at hall

theorem applyCommitIn_eq_applyCommit
    (h : ∀ visit ∈ Pass.visits ⟨r, ∅⟩ (c.events q), visit.1.Unambiguous visit.2)
    (orders : Nat → TableOrder) (cap : Nat) :
    applyCommitIn orders q cap r c = applyCommit q cap r c := by
  rw [applyCommitIn_eq, applyCommit_eq, passIn_eq_passOf h]

end Changes

variable {e : Engine} {c : Commit} {commits : List Commit}

/-- All renames of a run are unambiguous. -/
def Unambiguous (e : Engine) (commits : List Commit) : Prop :=
  ∀ visit ∈ e.visits commits, visit.1.Unambiguous visit.2

/-- A commit with unambiguous renames does the same in all orders of the hash tables. -/
theorem stepIn_eq_step (h : e.Unambiguous [c]) (orders : TableOrders) :
    e.stepIn orders c = e.step c := by
  rw [stepIn_eq, step_eq]
  cases htakes : e.takes c with
  | false => rw [if_neg Bool.false_ne_true, if_neg Bool.false_ne_true]
  | true =>
    rw [Unambiguous, visits, visits, List.append_nil, if_pos htakes] at h
    rw [if_pos rfl, if_pos rfl, applyCommitIn_eq_applyCommit h]

/-- If a history is unambiguous, so is its first commit. -/
theorem Unambiguous.head (h : e.Unambiguous (c :: commits)) : e.Unambiguous [c] := by
  intro visit hv
  rw [visits, visits, List.append_nil] at hv
  refine h visit ?_
  rw [visits]
  exact List.mem_append_left _ hv

theorem Unambiguous.tail (h : e.Unambiguous (c :: commits)) : (e.step c).Unambiguous commits :=
  fun visit hv => h visit (by rw [visits]; exact List.mem_append_right _ hv)

/-- **A run whose renames are all unambiguous leaves the same in all orders.** The induction is on
the commits. A merge that is passed over renames nothing. -/
theorem runIn_eq_run (h : e.Unambiguous commits) (orders : TableOrders) :
    e.runIn orders commits = e.run commits := by
  induction commits generalizing e with
  | nil => rw [runIn, run, List.foldl_nil, List.foldl_nil]
  | cons c rest ih =>
    rw [runIn_cons, run_cons, stepIn_eq_step h.head, ih h.tail]

/-- What a run leaves is told by the orders at the places that it goes through. -/
theorem runIn_congr {orders orders' : TableOrders}
    (h : ∀ n, e.processed ≤ n → n < e.processed + commits.length → orders n = orders' n) :
    e.runIn orders commits = e.runIn orders' commits := by
  induction commits generalizing e with
  | nil => rw [runIn, runIn, List.foldl_nil, List.foldl_nil]
  | cons c rest ih =>
    have hstep : e.stepIn orders c = e.stepIn orders' c := by
      rw [stepIn_eq, stepIn_eq, h e.processed (Nat.le_refl _) (Nat.lt_add_of_pos_right (by simp))]
    have hprocessed : (e.stepIn orders' c).processed = e.processed + 1 := by rw [stepIn_eq]
    rw [runIn_cons, runIn_cons, hstep]
    refine ih fun n hle hlt => h n ?_ ?_
    · omega
    · rw [List.length_cons]
      omega

/-- A run that changes its orders at a position is a run in the one orders followed by a run in the
other ones. -/
theorem runIn_upTo (orders later : TableOrders) (e : Engine) (first rest : List Commit)
    (h : e.processed = 0) :
    e.runIn (orders.upTo first.length later) (first ++ rest) =
      (e.runIn orders first).runIn later rest := by
  have hprocessed := processed_runIn (orders.upTo first.length later) e first
  rw [h, Nat.zero_add] at hprocessed
  have hlater : (e.runIn (orders.upTo first.length later) first).runIn
      (orders.upTo first.length later) rest =
        (e.runIn (orders.upTo first.length later) first).runIn later rest :=
    runIn_congr fun n hle _ => if_neg (by omega)
  have hfirst : e.runIn (orders.upTo first.length later) first = e.runIn orders first :=
    runIn_congr fun n _ hlt => if_pos (by omega)
  rw [runIn_append, hlater, hfirst]

/-! ### Runs that keep their units apart -/

/-- Each rename of the commit keeps the units apart and moves none that the commit has touched
before. -/
structure Orderly (q : UnitQuery) (r : Registry) (c : Commit) : Prop where
  separates : RenamesSeparate q r c
  stays : Pass.TouchedStay ⟨r, ∅⟩ (c.events q)

/-- **A commit that names no path twice is orderly** where units stay apart. Then no rename gives
two keys one key, and none moves a unit that has been touched, under whose old key a peer could be
left. -/
theorem orderly_of_keepsApart {e : Engine} {c : Commit} {commits : List Commit}
    (h : e.KeepsApart (c :: commits)) (hregular : e.registry.Regular) (htakes : e.takes c = true)
    (hnames : c.NamesApart) : Orderly e.query e.registry c := by
  have hne : ∀ source target, .rename source target ∈ c.events e.query → source ≠ target :=
    fun source target hm => Commit.ne_of_rename_mem_events hm
  have hhead := h.head htakes
  constructor
  · -- the registry in front of a rename is one of those that are met
    intro done source target ahead heq
    have hbefore : (done.foldl Pass.apply ⟨e.registry, ∅⟩).registry.Regular :=
      Pass.regular_before hregular hne (fun visit hv => (hhead visit hv).2) heq
    have hvisit : (done.foldl Pass.apply ⟨e.registry, ∅⟩, Event.rename source target) ∈
        Pass.visits ⟨e.registry, ∅⟩ (c.events e.query) := by
      rw [heq, Pass.visits_append]
      exact List.mem_append_right _ List.mem_cons_self
    exact Pass.separates_of_met hbefore (hhead _ hvisit).1 (hhead _ hvisit).2
  · refine Pass.touchedStay_of_leavesAlone hregular SortedMap.not_mem_empty hne ?_
      (hnames.pairwise_events e.query)
    have hdistinct := h.distinct
    rw [visits, if_pos htakes, List.flatMap_append] at hdistinct
    exact hdistinct.mono (List.subset_append_left _ _)

/-- An orderly commit is unambiguous where the couplings are coherent. -/
theorem Orderly.unambiguous (h : e.takes c = true → Orderly e.query e.registry c)
    (hcoherent : e.registry.entries.Coherent) : e.Unambiguous [c] := by
  rintro ⟨before, event⟩ hv
  rw [visits, visits, List.append_nil] at hv
  cases htakes : e.takes c with
  | false =>
    rw [htakes] at hv
    exact absurd hv List.not_mem_nil
  | true =>
    rw [if_pos htakes] at hv
    cases event with
    | touch u => trivial
    | rename source target =>
      -- all peers are there until the pairs are counted
      have hsep := (h htakes).separates.separated
      have hmutual : ∀ done source target ahead,
          c.events e.query = done ++ .rename source target :: ahead →
            (done.foldl Pass.apply ⟨e.registry, ∅⟩).registry.entries.Mutual :=
        fun done source target ahead heq =>
          Pass.mutual_foldl ⟨hcoherent.symmetric, hcoherent.closed⟩ (by
            rw [heq] at hsep
            exact hsep.left)
      have hmutual' : Pass.AtRenames (fun p _ _ => p.registry.entries.Mutual) ⟨e.registry, ∅⟩
          (c.events e.query) := hmutual
      exact unambiguous_of_separates
        ((h htakes).separates.of_visit hv) (hmutual'.of_visit hv).closed

/-- **A run that keeps its units apart is unambiguous** if none of its commits names a path
twice. -/
theorem unambiguous_of_keepsApart (h : e.KeepsApart commits) (hregular : e.registry.Regular)
    (hcoherent : e.registry.entries.Coherent) (hnames : ∀ c ∈ commits, c.NamesApart) :
    e.Unambiguous commits := by
  induction commits generalizing e with
  | nil => exact fun visit hv => absurd hv List.not_mem_nil
  | cons c rest ih =>
    obtain ⟨hfirst, hrest⟩ := List.forall_mem_cons.mp hnames
    have horderly : e.takes c = true → Orderly e.query e.registry c :=
      fun htakes => orderly_of_keepsApart h hregular htakes hfirst
    have hcoherent' : (e.step c).registry.entries.Coherent := by
      cases htakes : e.takes c with
      | true => exact coherent_step hcoherent (horderly htakes).separates (horderly htakes).stays
      | false =>
        rw [registry_step, htakes]
        exact hcoherent
    intro visit hv
    rw [visits] at hv
    rcases List.mem_append.mp hv with hv | hv
    · refine Orderly.unambiguous horderly hcoherent visit ?_
      rwa [visits, visits, List.append_nil]
    · exact ih h.tail (h.regular_step hregular) hcoherent' hrest visit hv

/-! ### Units and counts

The orders of the peers have no part in which unit stands where, and so neither do renames that give
several peers one key. Only the moved units have to get different keys. -/

/-- Without couplings a rename is unambiguous that gives no two of the units that it moves one
key. -/
theorem unambiguous_bare {r : Registry} {source target : String}
    (hinj : ∀ j k, j ∈ r.moves source target → k ∈ r.moves source target →
      r.newKey source target j = r.newKey source target k → j = k) :
    r.bare.Unambiguous source target where
  units j k hj hk heq := by
    rw [moves_bare] at hj hk
    rw [newKey_bare, newKey_bare] at heq
    exact hinj j k hj hk heq
  peers i e he j k hj _ _ := by
    obtain ⟨d, -, rfl⟩ := Option.map_eq_some_iff.mp ((Entries.get?_bare r.entries i).symm.trans he)
    exact absurd hj (SortedMap.not_mem_empty j)

/-- Without couplings, the same events are met, by passes without couplings. -/
theorem visits_bare (p : Pass) (events : List Event) :
    p.bare.visits events = (p.visits events).map fun visit => (visit.1.bare, visit.2) := by
  induction events generalizing p with
  | nil => rfl
  | cons event rest ih =>
    rw [Pass.visits, Pass.visits, List.map_cons, ← Pass.bare_apply, ih]

/-- Without couplings a commit leaves the same in all orders, if no two of the units that it meets
have one key. -/
theorem passIn_bare_eq {q : UnitQuery} {r : Registry} (hregular : r.Regular)
    (hapart : ∀ visit ∈ Pass.visits ⟨r, ∅⟩ (c.events q), CodeUnit.KeysApart (visit.1.met visit.2))
    (orders : Nat → TableOrder) : passIn orders q r.bare c = passOf q r.bare c := by
  have hbefore : Pass.AtRenames (fun p _ _ => p.registry.Regular) ⟨r, ∅⟩ (c.events q) :=
    fun done source target ahead heq => Pass.regular_before hregular
      (fun source target hm => Commit.ne_of_rename_mem_events hm) hapart heq
  refine passIn_eq_passOf ?_ orders
  rw [show (⟨r.bare, ∅⟩ : Pass) = Pass.bare ⟨r, ∅⟩ from rfl, visits_bare]
  rintro visit hv
  obtain ⟨⟨before, event⟩, hmem, rfl⟩ := List.mem_map.mp hv
  cases event with
  | touch u => trivial
  | rename source target =>
    exact unambiguous_bare (Pass.overlays_of_met (hbefore.of_visit hmem) (hapart _ hmem)).inj

/-- **Units, counts and index are the same in all orders** if no two of the units that a run meets
have one key, and so is everything else that an engine keeps besides couplings. -/
theorem bare_runIn_eq_bare_run {e' : Engine} (h : e'.bare = e.bare) (hregular : e.registry.Regular)
    (hapart : ∀ visit ∈ e.visits commits, CodeUnit.KeysApart (visit.1.met visit.2))
    (orders : TableOrders) : (e'.runIn orders commits).bare = (e.run commits).bare := by
  induction commits generalizing e e' with
  | nil => exact h
  | cons c rest ih =>
    rw [visits, List.forall_mem_append] at hapart
    have hregular' : (e.step c).registry.Regular := regular_step hregular (by
      rw [visits, visits, List.append_nil]
      exact hapart.1)
    rw [runIn_cons, run_cons]
    refine ih ?_ hregular' hapart.2
    show _ = (e.stepIn .byKey c).bare
    rw [bare_stepIn_eq fun _ _ => rfl, bare_stepIn_eq fun _ _ => rfl, h]
    cases htakes : e.takes c with
    | false =>
      rw [if_neg (by rw [takes_bare, htakes]; simp), if_neg (by rw [takes_bare, htakes]; simp)]
    | true =>
      rw [htakes, if_pos rfl] at hapart
      have hpass := passIn_bare_eq hregular hapart.1
      rw [show e.bare.registry = e.registry.bare from rfl, show e.bare.query = e.query from rfl,
        hpass, hpass]

end Engine

end CoChange
