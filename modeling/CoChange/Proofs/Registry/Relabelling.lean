import CoChange.Proofs.Registry.TouchSet

/-!
# A rename is a relabelling

Where the moved units get no key of a unit of another file, a rename does nothing but put new keys
in the place of old ones, in all places at once. `Registry.relabelled` is that substitution, read
off the entries alone. A new key may be the old key of another unit of the same file: the two are
exchanged together, and not one after the other.

* **`newKey_eq_relabelled`**: the keys that a rename gives are those of the substitution, if the
  index is right.
* **`get?_carried_iff`**: the peers of an entry are relabelled, and their numbers stay.
* **`rename_relabels`**: entries, peers and index after a rename are the relabelled ones.
-/

namespace CoChange

namespace Registry

variable {source target : String} {r : Registry}

/-- The key of a unit of the old file under the new path; all other keys stay. -/
def relabelled (source target : String) (r : Registry) (key : String) : String :=
  match r.entries.get? key with
  | some e => if e.unit.file = source then (e.unit.relocated target).key else key
  | none => key

/-- The unit in its new file, if it is of the old one. -/
def relocatedFrom (source target : String) (u : CodeUnit) : CodeUnit :=
  if u.file = source then u.relocated target else u

/-- A unit moves exactly if it is of the old file. -/
theorem mem_moves_iff_file (hidx : r.Indexed) {k : String} {e : Entry}
    (he : r.entries.get? k = some e) :
    k ∈ r.moves source target ↔ e.unit.file = source := by
  rw [mem_moves, hidx source k]
  constructor
  · rintro ⟨⟨e', he', hf⟩, _⟩
    rw [he] at he'
    rw [Option.some.inj he', hf]
  · intro hf
    exact ⟨⟨e, he, hf⟩, SortedMap.mem_of_get? he⟩

/-- **The keys that a rename gives are those of the substitution.** The index tells which keys are
of the file, and that is what the substitution goes by. -/
theorem newKey_eq_relabelled (hidx : r.Indexed) (k : String) :
    r.newKey source target k = r.relabelled source target k := by
  rw [relabelled]
  cases he : r.entries.get? k with
  | none => exact newKey_of_not_mem fun hm => SortedMap.get?_eq_none_iff.mp he (mem_moves.mp hm).2
  | some e =>
    by_cases hf : e.unit.file = source
    · rw [newKey_of_mem ((mem_moves_iff_file hidx he).mpr hf) he]
      exact (if_pos hf).symm
    · rw [newKey_of_not_mem fun hm => hf ((mem_moves_iff_file hidx he).mp hm)]
      exact (if_neg hf).symm

theorem newUnit_eq_relocatedFrom (hidx : r.Indexed) {k : String} {e : Entry}
    (he : r.entries.get? k = some e) :
    r.newUnit source target k e.unit = relocatedFrom source target e.unit := by
  rw [newUnit, relocatedFrom]
  exact if_congr (mem_moves_iff_file hidx he) rfl rfl

/-- **The peers of a carried entry are the relabelled ones, with the numbers that they had.** The
peers are there, so a substitution that keeps keys apart keeps them apart. -/
theorem get?_carried_iff (hidx : r.Indexed) (hsep : r.Separates source target)
    (hclosed : r.entries.Closed)
    {k : String} {e : Entry} (he : r.entries.get? k = some e) (peer : String) (n : Nat) :
    (r.carried source target k e).couples.get? peer = some n ↔
      ∃ p, r.relabelled source target p = peer ∧ e.couples.get? p = some n := by
  have hpeer : ∀ p, p ∈ e.couples → p ∈ r.entries := fun p hp => by
    obtain ⟨m, hm⟩ := SortedMap.mem_iff.mp hp
    exact hclosed k p m (by rw [Entries.coupling_of_get? he, hm])
  rw [carried, get?_relabel fun i j hi hj => hsep i j (hpeer i hi) (hpeer j hj)]
  simp only [← newKey_eq_relabelled hidx]
  rfl

/-- Under the old path nothing is listed any more, and other files than the two keep what they
list. -/
theorem get?_files_rename (hne : source ≠ target) {file : String} (hf : file ≠ target) :
    (r.rename source target).files.get? file = if file = source then
      none else r.files.get? file := by
  cases h : r.files.get? source with
  | none =>
    rw [rename_of_none h]
    by_cases hs : file = source
    · rw [if_pos hs, hs, h]
    · rw [if_neg hs]
  | some keys => rw [rename_of_some hne h, SortedMap.get?_insert, if_neg hf, SortedMap.get?_erase]

/-- The entries after a rename, told by the substitution. -/
theorem get?_rename_relabelled (hne : source ≠ target) (hidx : r.Indexed)
    (hsep : r.Separates source target)
    (hrec : r.entries.Reciprocal) (hclosed : r.entries.Closed) {key : String} {e' : Entry} :
    (r.rename source target).entries.get? key = some e' ↔
      ∃ k e, r.entries.get? k = some e ∧ r.relabelled source target k = key ∧
        e'.unit = relocatedFrom source target e.unit ∧ e'.count = e.count ∧
        ∀ peer n, e'.couples.get? peer = some n ↔
          ∃ p, r.relabelled source target p = peer ∧ e.couples.get? p = some n := by
  rw [get?_rename_iff hne hsep hrec]
  refine exists_congr fun k => exists_congr fun e => and_congr_right fun he => ?_
  rw [newKey_eq_relabelled hidx]
  refine and_congr_right fun _ => ?_
  have hcouples := get?_carried_iff hidx hsep hclosed he
  constructor
  · rintro rfl
    exact ⟨newUnit_eq_relocatedFrom hidx he, rfl, hcouples⟩
  · rintro ⟨hunit, hcount, hpeers⟩
    -- two sorted maps with the same look-ups are one
    have hmap : (r.carried source target k e).couples = e'.couples :=
      SortedMap.ext_get? fun peer =>
        Option.ext fun n => (hcouples peer n).trans (hpeers peer n).symm
    obtain ⟨unit, count, couples⟩ := e'
    rw [carried, Entry.mk.injEq]
    exact ⟨(newUnit_eq_relocatedFrom hidx he).trans hunit.symm, hcount.symm, hmap⟩

/-- The new file lists what it listed before and the relabelled keys of the old one. -/
theorem lists_rename_target (hne : source ≠ target) (hidx : r.Indexed) {key : String} :
    (r.rename source target).files.Lists target key ↔
      r.files.Lists target key ∨ ∃ k, r.files.Lists source k ∧
      r.relabelled source target k = key := by
  have hmoves : ∀ k, k ∈ r.moves source target ↔ r.files.Lists source k := fun k => by
    rw [mem_moves, and_iff_left_iff_imp, hidx source k]
    rintro ⟨e, he, _⟩
    exact SortedMap.mem_of_get? he
  rw [lists_rename hne]
  simp only [hmoves, newKey_eq_relabelled hidx, true_and, ne_eq, Ne.symm hne, not_false_eq_true]
  exact or_comm

end Registry

open Registry

/-! ## The relabelling -/

/-- **A rename relabels.** If no moved unit gets the key of a unit of another file, the substitution
keeps the keys apart, the entries after the rename are the relabelled ones, each with its unit in
the new file if it was of the old one, its count, and its relabelled peers; the old file has no line
in the index any more, the new one lists what it listed and the relabelled keys, and the lines of
other files stay. -/
theorem rename_relabels (r : Registry) (source target : String) (hne : source ≠ target)
    (hkeyed : ∀ k e, r.entries.get? k = some e → e.unit.key = k) (hidx : r.Indexed)
    (hrec : r.entries.Reciprocal) (hclosed : r.entries.Closed)
    (hfree : ∀ j k d e, r.entries.get? j = some d → d.unit.file = source →
      r.entries.get? k = some e → e.unit.file ≠ source → (d.unit.relocated target).key ≠ k) :
    let new := r.relabelled source target
    let r' := r.rename source target
    (∀ j k, j ∈ r.entries → k ∈ r.entries → new j = new k → j = k) ∧
    (∀ key e', r'.entries.get? key = some e' ↔
      ∃ k e, r.entries.get? k = some e ∧
        new k = key ∧ e'.unit = relocatedFrom source target e.unit ∧
        e'.count = e.count ∧
        ∀ peer n, e'.couples.get? peer = some n ↔ ∃ p, new p = peer ∧ e.couples.get? p = some n) ∧
    r'.files.get? source = none ∧
    (∀ key, r'.files.Lists target key ↔
      r.files.Lists target key ∨ ∃ k, r.files.Lists source k ∧ new k = key) ∧
    ∀ file, file ≠ source → file ≠ target → r'.files.get? file = r.files.get? file := by
  intro new r'
  have hsep : r.Separates source target := separates_of_free hidx hkeyed hfree
  refine ⟨fun j k hj hk heq => ?_, fun key e' => ?_, ?_, fun key => ?_, fun file hs ht => ?_⟩
  · exact hsep j k hj hk (by rw [newKey_eq_relabelled hidx, newKey_eq_relabelled hidx]; exact heq)
  · exact get?_rename_relabelled hne hidx hsep hrec hclosed
  · rw [get?_files_rename hne hne, if_pos rfl]
  · exact lists_rename_target hne hidx
  · rw [get?_files_rename hne ht, if_neg hs]

namespace Sample

/-- Adds a file with two functions, one of which gets the key of the other under the path of
`rename_relabels_sample`, and another file. -/
def overlapping : Commit :=
  ⟨"overlapping", 1, [added "x" [function "n" 1 2, function "n_y" 3 4], added "z" [foo]]⟩

/-- The registry after that commit, in which all three functions are peers. -/
def crowded : Registry := ((Engine.new query 0).step overlapping).registry

theorem coherent_crowded : crowded.entries.Coherent :=
  Engine.coherent_step (e := Engine.new query 0) (c := overlapping) Entries.coherent_empty
    (Pass.atRenames_nil.touch.touch.touch : Pass.AtRenames _ _ (overlapping.events query))
    (Pass.atRenames_nil.touch.touch.touch : Pass.AtRenames _ _ (overlapping.events query))

end Sample

/-- The key that `n` gets is the old key of `n_y`, and all peers follow. -/
theorem rename_relabels_sample :
    let r := Sample.crowded
    let r' := r.rename "x" "y_x"
    "x" ≠ "y_x" ∧ (∀ k e, r.entries.get? k = some e → e.unit.key = k) ∧
      r.Indexed ∧ r.entries.Reciprocal ∧
      r.entries.Closed ∧
      (∀ j k d e, r.entries.get? j = some d → d.unit.file = "x" →
        r.entries.get? k = some e → e.unit.file ≠ "x" → (d.unit.relocated "y_x").key ≠ k) ∧
      r.relabelled "x" "y_x" "Function_n_x" = "Function_n_y_x" ∧ "Function_n_y_x" ∈ r.entries ∧
      (∀ key, r'.files.Lists "y_x" key ↔
        r.files.Lists "y_x" key ∨ ∃ k, r.files.Lists "x" k ∧ r.relabelled "x" "y_x" k = key) ∧
      r'.entries.coupling "Function_n_y_x" "Function_foo_z" = some 1 := by
  intro r r'
  have hne : "x" ≠ "y_x" := by decide
  have hkeyed : ∀ k e, r.entries.get? k = some e → e.unit.key = k := by
    have hall : ∀ a ∈ r.entries.toList, a.2.unit.key = a.1 := by decide +kernel
    exact fun k e he => hall (k, e) (SortedMap.get?_eq_some_iff.mp he)
  have hidx : r.Indexed := isConsistent_iff.mp (by decide +kernel)
  have hrec : r.entries.Reciprocal := Sample.coherent_crowded.symmetric.reciprocal
  have hclosed : r.entries.Closed := Sample.coherent_crowded.closed
  have hfree : ∀ j k d e, r.entries.get? j = some d → d.unit.file = "x" →
      r.entries.get? k = some e → e.unit.file ≠ "x" → (d.unit.relocated "y_x").key ≠ k := by
    have hall : ∀ a ∈ r.entries.toList, ∀ b ∈ r.entries.toList, a.2.unit.file = "x" →
        b.2.unit.file ≠ "x" →
        (a.2.unit.relocated "y_x").key ≠ b.1 := by decide +kernel
    exact fun j k d e hd hs he hf => hall (j, d) (SortedMap.get?_eq_some_iff.mp hd) (k, e)
      (SortedMap.get?_eq_some_iff.mp he) hs hf
  obtain ⟨-, -, -, hlists, -⟩ := rename_relabels r "x" "y_x" hne hkeyed hidx hrec hclosed hfree
  exact ⟨hne, hkeyed, hidx, hrec,
    hclosed, hfree, by decide +kernel, by decide +kernel, hlists, by decide +kernel⟩

end CoChange
