import CoChange.Proofs.Sharding

/-!
# Merging in any order and in any groups

What engines have consumed is added up by a merge, and adding is associative, so it does not matter
which of them are merged first. It is commutative as far as the engines agree: on the unit under a
key that several of them have, and on the statistics of a commit that several of them have consumed.
Only the commit that came last depends on the order.

* **`Ledger.join_comm`**: ledgers that agree can be added in either order, but for the last commit.
* **`Ledger.foldl_join_perm`**, **`Ledger.foldl_join`**: so a series of ledgers can be added in any
  order, and a part of it can be added up first.
* **`merge_of_regrouped`**: merging engines in another order, or some of them in a fork first, and
  so on, leaves the same.

Agreement is stated between any two engines. It is used in the form that all of them follow one
`Directory`, which their sums follow as well.
-/

namespace CoChange

/-! ## Engines that agree -/

/-- Two engines have the same unit under each key that both have, and the same statistics of each
commit that both have. What else they have is open. -/
structure Engine.Agrees (e e' : Engine) : Prop where
  units : ∀ k d d', e.registry.entries.get? k = some d → e'.registry.entries.get? k = some d' →
    d.unit = d'.unit
  stats : ∀ hash s s', e.stats.get? hash = some s → e'.stats.get? hash = some s' → s = s'

instance (e e' : Engine) : Decidable (e.Agrees e') :=
  decidable_of_iff
    ((∀ a ∈ e.registry.entries.toList, ∀ b ∈ e'.registry.entries.toList,
        a.1 = b.1 → a.2.unit = b.2.unit) ∧
      ∀ a ∈ e.stats.toList, ∀ b ∈ e'.stats.toList, a.1 = b.1 → a.2 = b.2)
    ⟨fun h => ⟨fun k d d' hd hd' => h.1 (k, d) (SortedMap.get?_eq_some_iff.mp hd) (k, d')
        (SortedMap.get?_eq_some_iff.mp hd') rfl,
      fun hash s s' hs hs' => h.2 (hash, s) (SortedMap.get?_eq_some_iff.mp hs) (hash, s')
        (SortedMap.get?_eq_some_iff.mp hs') rfl⟩,
    fun h => ⟨fun a ha b hb hab => h.units a.1 a.2 b.2 (SortedMap.get?_of_mem_toList ha)
        (hab ▸ SortedMap.get?_of_mem_toList hb),
      fun a ha b hb hab => h.stats a.1 a.2 b.2 (SortedMap.get?_of_mem_toList ha)
        (hab ▸ SortedMap.get?_of_mem_toList hb)⟩⟩

/-- One unit for each key, and one record of statistics for each commit. -/
structure Directory where
  unitAt : String → CodeUnit
  statsAt : String → CommitStats

namespace Ledger

/-- The units and statistics of the ledger are those of the directory. -/
structure Follows (d : Directory) (l : Ledger) : Prop where
  units : ∀ k e, l.entries.get? k = some e → e.unit = d.unitAt k
  stats : ∀ hash s, l.stats.get? hash = some s → s = d.statsAt hash

/-- What is joined of two ledgers of one directory is of that directory. Where both know a key they
agree on the unit, and the count is the sum. -/
theorem Follows.join {d : Directory} {a b : Ledger} (ha : a.Follows d) (hb : b.Follows d) :
    (a.join b).Follows d where
  units k e he := by
    rcases Entries.unit_of_join he with ⟨x, hx, hunit⟩ | ⟨y, hy, hunit⟩
    · rw [hunit]
      exact ha.units k x hx
    · rw [hunit]
      exact hb.units k y hy
  stats hash s hs := by
    have hget : (a.join b).stats.get? hash =
        Option.merge (fun _ v => v) (a.stats.get? hash) (b.stats.get? hash) :=
      SortedMap.get?_unionWith _ _ _ hash
    rw [hget] at hs
    cases hbh : b.stats.get? hash with
    | none =>
      rw [hbh, Option.merge_none_right] at hs
      exact ha.stats hash s hs
    | some y =>
      -- of two statistics of a commit the later one is kept
      have hy : s = y := by
        cases hah : a.stats.get? hash <;> simp_all
      rw [hy]
      exact hb.stats hash y hbh

/-- However many ledgers of one directory are joined, the result is of that directory. -/
theorem Follows.foldl {d : Directory} {acc : Ledger} {ls : List Ledger} (hacc : acc.Follows d)
    (hls : ∀ l ∈ ls, l.Follows d) : (ls.foldl Ledger.join acc).Follows d := by
  induction ls generalizing acc with
  | nil => exact hacc
  | cons l rest ih =>
    obtain ⟨hl, hrest⟩ := List.forall_mem_cons.mp hls
    exact ih (hacc.join hl) hrest

/-! ## Adding in another order -/

/-- The ledger without the commit that came last. -/
def undated (l : Ledger) : Ledger := { l with last := none }

theorem undated_join (a b : Ledger) : (a.join b).undated = a.undated.join b.undated := rfl

theorem undated_foldl_join (ls : List Ledger) (acc : Ledger) :
    (ls.foldl join acc).undated = (ls.map undated).foldl join acc.undated := by
  induction ls generalizing acc with
  | nil => rfl
  | cons l rest ih => rw [List.foldl_cons, ih, undated_join, List.map_cons, List.foldl_cons]

/-- Two entries of one unit are joined the same in either order, as sums are. -/
theorem joinEntry_comm {e e' : Entry} (h : e.unit = e'.unit) :
    Registry.joinEntry e e' = Registry.joinEntry e' e := by
  have hcouples : e.couples.unionWith (· + ·) e'.couples = e'.couples.unionWith (· + ·) e.couples :=
    SortedMap.unionWith_comm fun _ n m _ _ => Nat.add_comm n m
  unfold Registry.joinEntry
  rw [h, Nat.add_comm, hcouples]

/-- **Ledgers of one directory can be added in either order**, but for the last commit. Counts and
couplings are added, the units under a key agree, and the statistics are sums; only the last commit
is that of the second one. -/
theorem join_comm {d : Directory} {a b : Ledger} (ha : a.Follows d) (hb : b.Follows d) :
    (a.join b).undated = (b.join a).undated := by
  have hentries : a.entries.join b.entries = b.entries.join a.entries :=
    SortedMap.unionWith_comm fun k e e' he he' =>
      joinEntry_comm ((ha.units k e he).trans (hb.units k e' he').symm)
  have hmerges : SortedMap.union a.merges b.merges = SortedMap.union b.merges a.merges :=
    SortedMap.unionWith_comm fun _ _ _ _ _ => rfl
  have hstats : a.stats.union b.stats = b.stats.union a.stats :=
    SortedMap.unionWith_comm fun hash s s' hs hs' =>
      (hb.stats hash s' hs').trans (ha.stats hash s hs).symm
  exact Ledger.ext hentries hmerges hstats (Nat.add_comm _ _) rfl

/-- **A series of ledgers of one directory can be added in any order.** What they are added to need
not be of the directory: it stays in front. -/
theorem foldl_join_perm {d : Directory} {ls ls' : List Ledger} (hperm : ls.Perm ls')
    (hls : ∀ l ∈ ls, l.Follows d) (acc : Ledger) :
    (ls.foldl join acc).undated = (ls'.foldl join acc).undated := by
  have hundated : ∀ l ∈ ls.map undated, l.Follows d ∧ l.undated = l := by
    simp only [List.mem_map, forall_exists_index, and_imp, forall_apply_eq_imp_iff₂]
    exact fun l hl => ⟨⟨(hls l hl).units, (hls l hl).stats⟩, rfl⟩
  have hswap : ∀ x ∈ ls.map undated, ∀ y ∈ ls.map undated, ∀ z : Ledger,
      (z.join x).join y = (z.join y).join x := by
    intro x hx y hy z
    have hxy := join_comm (hundated x hx).1 (hundated y hy).1
    rw [undated_join, undated_join, (hundated x hx).2, (hundated y hy).2] at hxy
    rw [join_assoc, join_assoc, hxy]
  rw [undated_foldl_join, undated_foldl_join]
  exact (hperm.map undated).foldl_eq' hswap _

/-- **A series of ledgers can be added up before it is added to another one.** The joining is
associative, so the groups may be made in any way. -/
theorem foldl_join (ls : List Ledger) (a b : Ledger) :
    ls.foldl join (a.join b) = a.join (ls.foldl join b) := by
  induction ls generalizing b with
  | nil => rfl
  | cons l rest ih => rw [List.foldl_cons, join_assoc, ih, List.foldl_cons]

end Ledger

/-! ## Merging -/

namespace Engine

/-- Engines of which any two agree follow one directory. -/
theorem exists_follows {branches : List Engine}
    (h : ∀ b ∈ branches, ∀ b' ∈ branches, b.Agrees b') :
    ∃ d, ∀ b ∈ branches, b.ledger.Follows d := by
  have hunit : ∀ k, ∃ u, ∀ b ∈ branches, ∀ e, b.registry.entries.get? k = some e → e.unit = u := by
    intro k
    by_cases hsome : ∃ b ∈ branches, ∃ e, b.registry.entries.get? k = some e
    · obtain ⟨b, hb, e, he⟩ := hsome
      exact ⟨e.unit, fun b' hb' e' he' => (h b' hb' b hb).units k e' e he' he⟩
    · exact ⟨default, fun b hb e he => absurd ⟨b, hb, e, he⟩ hsome⟩
  have hstats : ∀ hash, ∃ s, ∀ b ∈ branches, ∀ t, b.stats.get? hash = some t → t = s := by
    intro hash
    by_cases hsome : ∃ b ∈ branches, ∃ t, b.stats.get? hash = some t
    · obtain ⟨b, hb, t, ht⟩ := hsome
      exact ⟨t, fun b' hb' t' ht' => (h b' hb' b hb).stats hash t' t ht' ht⟩
    · exact ⟨default, fun b hb t ht => absurd ⟨b, hb, t, ht⟩ hsome⟩
  -- what the branches agree on is the directory
  obtain ⟨unitAt, hunitAt⟩ := Classical.skolem.mp hunit
  obtain ⟨statsAt, hstatsAt⟩ := Classical.skolem.mp hstats
  exact ⟨⟨unitAt, statsAt⟩, fun b hb => ⟨fun k => hunitAt k b hb, fun hash => hstatsAt hash b hb⟩⟩

/-- The second list of engines comes from the first one by putting engines into another order and by
merging some of them into a fork of `e`, which takes their place; any number of times. -/
inductive Regrouped (e : Engine) : List Engine → List Engine → Prop
  | reordered {branches branches' : List Engine} (h : branches.Perm branches') :
      Regrouped e branches branches'
  | merged {n : Nat} {fork : Engine} (h : fork ∈ e.fork n) (group rest : List Engine) :
      Regrouped e (group ++ rest) (fork.merge group :: rest)
  | trans {branches branches' branches'' : List Engine} (h : Regrouped e branches branches')
      (h' : Regrouped e branches' branches'') : Regrouped e branches branches''

/-- Merging branches of one directory into an empty engine gives a ledger of that directory. -/
theorem follows_merge_reset {e : Engine} {d : Directory} {branches : List Engine}
    (h : ∀ b ∈ branches, b.ledger.Follows d) : (e.reset.merge branches).ledger.Follows d := by
  have hempty : e.reset.ledger.Follows d :=
    ⟨fun k x hx => absurd hx (by simp [ledger, reset, new, Registry.empty]),
      fun hash s hs => absurd hs (by simp [ledger, reset, new])⟩
  rw [ledger_merge]
  refine hempty.foldl fun l hl => ?_
  obtain ⟨b, hb, rfl⟩ := List.mem_map.mp hl
  exact h b hb

/-- **A merge of engines that follow one directory does not depend on their order and grouping**,
and what they are grouped into follows the directory too. -/
theorem Regrouped.undated_ledger {e : Engine} {d : Directory} {branches branches' : List Engine}
    (h : Regrouped e branches branches') (hfollows : ∀ b ∈ branches, b.ledger.Follows d) :
    (e.merge branches').ledger.undated = (e.merge branches).ledger.undated ∧
      ∀ b ∈ branches', b.ledger.Follows d := by
  induction h with
  | @reordered branches branches' hperm =>
    refine ⟨?_, fun b hb => hfollows b (hperm.mem_iff.mpr hb)⟩
    have hls : ∀ l ∈ branches.map ledger, l.Follows d := by
      intro l hl
      obtain ⟨b, hb, rfl⟩ := List.mem_map.mp hl
      exact hfollows b hb
    rw [ledger_merge, ledger_merge]
    exact (Ledger.foldl_join_perm (hperm.map ledger) hls e.ledger).symm
  | @merged n fork hfork group rest =>
    obtain rfl := eq_reset_of_mem_fork hfork
    obtain ⟨hgroup, hrest⟩ := List.forall_mem_append.mp hfollows
    refine ⟨congrArg Ledger.undated ?_,
      List.forall_mem_cons.mpr ⟨follows_merge_reset hgroup, hrest⟩⟩
    -- what the fork has added up is added to what the engine had
    calc (e.merge (e.reset.merge group :: rest)).ledger
        = (rest.map ledger).foldl Ledger.join (e.ledger.join (e.reset.merge group).ledger) := by
          rw [ledger_merge, List.map_cons, List.foldl_cons]
      _ = (rest.map ledger).foldl Ledger.join ((group.map ledger).foldl Ledger.join e.ledger) := by
          rw [ledger_merge, ← Ledger.foldl_join, join_ledger_reset]
      _ = (e.merge (group ++ rest)).ledger := by
          rw [ledger_merge, List.map_append, List.foldl_append]
  | trans _ _ ih ih' =>
    obtain ⟨hfirst, hfollows'⟩ := ih hfollows
    obtain ⟨hsecond, hfollows''⟩ := ih' hfollows'
    exact ⟨hsecond.trans hfirst, hfollows''⟩

end Engine

/-- **The result of a merge depends neither on the order nor on the grouping of the engines**, if
any two of them agree. Nothing is asked of the engine that they are merged into. -/
theorem merge_of_regrouped (e : Engine) (branches branches' : List Engine)
    (hagree : ∀ b ∈ branches, ∀ b' ∈ branches, b.Agrees b') (h : e.Regrouped branches branches') :
    let merged := e.merge branches
    let merged' := e.merge branches'
    merged'.registry.entries = merged.registry.entries ∧
    merged'.registry.files = merged.registry.files ∧
    merged'.merges.hashes = merged.merges.hashes ∧
    merged'.stats = merged.stats ∧
    merged'.processed = merged.processed ∧
    merged'.finalize = merged.finalize := by
  intro merged merged'
  obtain ⟨d, hfollows⟩ := Engine.exists_follows hagree
  have hledger : merged'.ledger.undated = merged.ledger.undated := (h.undated_ledger hfollows).1
  have hentries : merged'.registry.entries = merged.registry.entries :=
    congrArg Ledger.entries hledger
  have hstats : merged'.stats = merged.stats := congrArg Ledger.stats hledger
  have hmerges : merged'.merges.hashes = merged.merges.hashes :=
    congrArg (fun l => l.merges.keys) hledger
  -- both indices have been built anew
  have hfiles : merged'.registry.files = merged.registry.files :=
    congrArg FileIndex.ofEntries hentries
  refine ⟨hentries, hfiles, hmerges, hstats, congrArg Ledger.processed hledger, ?_⟩
  unfold Engine.finalize
  rw [hentries, hstats]

/-! ### Three branches

All have touched one function, and the last one has forgotten a merge that it has consumed. -/

namespace Sample

/-- Engines that have consumed one commit each, the last of which has gone to sleep. -/
def branches : List Engine :=
  [(Engine.new query 0).run [first], (Engine.new query 0).run [merge],
    ((Engine.new query 0).run [merge, second]).hibernate]

/-- The last two are merged in a fork, and the first one comes behind it. -/
def regrouped : List Engine :=
  [(Engine.new query 0).merge (branches.drop 1), (Engine.new query 0).run [first]]

theorem regrouped_branches : (Engine.new query 0).Regrouped branches regrouped := by
  have hfork : Engine.new query 0 ∈ (Engine.new query 0).fork 1 := List.mem_singleton.mpr rfl
  have hbehind : (branches.take 1 ++ branches.drop 1).Perm (branches.drop 1 ++ branches.take 1) :=
    List.perm_append_comm
  exact .trans (.reordered hbehind) (.merged hfork (branches.drop 1) (branches.take 1))

end Sample

/-- Branches that agree may be merged in the order and the groups of the sample: entries and report
are those of merging them all at once. -/
theorem merge_of_regrouped_sample :
    let e := Engine.new Sample.query 0
    (∀ b ∈ Sample.branches, ∀ b' ∈ Sample.branches, b.Agrees b') ∧
    e.Regrouped Sample.branches Sample.regrouped ∧
    (e.merge Sample.regrouped).registry.entries = (e.merge Sample.branches).registry.entries ∧
    (e.merge Sample.regrouped).finalize = (e.merge Sample.branches).finalize := by
  intro e
  have hagree : ∀ b ∈ Sample.branches, ∀ b' ∈ Sample.branches, b.Agrees b' := by decide +kernel
  obtain ⟨hentries, _, _, _, _, hfinalize⟩ := merge_of_regrouped e Sample.branches Sample.regrouped
    hagree Sample.regrouped_branches
  exact ⟨hagree, Sample.regrouped_branches, hentries, hfinalize⟩

end CoChange
