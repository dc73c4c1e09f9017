import CoChange.Arithmetic
import CoChange.Partition
import Mathlib.Data.List.Infix

/-!
# The ranges of a partition, and chunks

* **`sum_shardSizes`**: the sizes of the shards add up to the length that is cut.
* **`flatten_slices`**: the slices of a list at the ranges of a partition, one after the other, are
  the list again.
* **`partition_tiles`**: the ranges of a partition are as many as they can be, lie side by side over
  the whole length (`Tiles`), and hardly differ in size.
* **`length_chunks`**, **`flatten_chunks`**: how many chunks a list has, and that they make it up.
* **`flatten_take_chunks`**: the first chunks of a list, one after the other, are its first members.
-/

namespace CoChange

/-- The first few of equal sizes get one more, which adds as many as there are of these. -/
theorem sum_range_add_ite (n m a : Nat) :
    ((List.range n).map fun i => a + if i < m then 1 else 0).sum = n * a + min m n := by
  induction n with
  | zero => simp
  | succ n ih =>
    rw [List.range_succ, List.map_append, List.sum_append, ih, Nat.succ_mul]
    simp only [List.map_cons, List.map_nil, List.sum_cons, List.sum_nil]
    split <;> omega

/-- **The sizes of the shards add up to the whole.** Each shard has the quotient, and as many shards
as the remainder says have one more. -/
theorem sum_shardSizes (len : Nat) {shards : Nat} (h : 0 < shards) :
    (shardSizes len shards).sum = len := by
  have hmin : min (len % shards) shards = len % shards := Nat.min_eq_left (Nat.mod_lt _ h).le
  rw [shardSizes, sum_range_add_ite, hmin]
  exact Nat.div_add_mod len shards

theorem slice_isInfix (r : Range) (l : List α) : r.slice l <:+: l :=
  (List.take_prefix _ _).isInfix.trans (List.drop_suffix _ _).isInfix

/-- The slices at consecutive ranges make up a piece of the list. -/
theorem flatten_slices_consecutive (l : List α) (start : Nat) (sizes : List Nat) :
    ((consecutive start sizes).map (·.slice l)).flatten = (l.drop start).take sizes.sum := by
  induction sizes generalizing start with
  | nil => simp [consecutive]
  | cons size rest ih =>
    rw [consecutive, List.sum_cons]
    by_cases h : size = 0
    · -- an empty range is left out
      rw [if_pos h, ih, h, Nat.add_zero, Nat.zero_add]
    · rw [if_neg h, List.map_cons, List.flatten_cons, ih, Range.slice, Range.size, List.take_add,
        List.drop_drop, Nat.add_sub_cancel_left]

/-- **The ranges of a partition cut a list into consecutive slices.** The ranges tile the list, so
each slice begins where the one before it ends. -/
theorem flatten_slices (l : List α) (shards : Nat) :
    ((partition l.length shards).map (·.slice l)).flatten = l := by
  have hpos : 0 < min (max shards 1) (max l.length 1) := by omega
  rw [partition, flatten_slices_consecutive, sum_shardSizes _ hpos, List.drop_zero,
    List.take_length]

/-! ## How the ranges lie -/

/-- Ranges that cover the positions from `start` up to `stop` side by side, and of which none is
empty. -/
inductive Tiles : Nat → List Range → Nat → Prop where
  | nil (start : Nat) : Tiles start [] start
  | cons {r : Range} {rest : List Range} {stop : Nat} (hne : r.start < r.stop)
      (hrest : Tiles r.stop rest stop) : Tiles r.start (r :: rest) stop

/-- Pieces that are laid one behind the other tile the range from the first to the end of the
last. -/
theorem tiles_consecutive (start : Nat) (sizes : List Nat) :
    Tiles start (consecutive start sizes) (start + sizes.sum) := by
  induction sizes generalizing start with
  | nil => exact .nil start
  | cons size rest ih =>
    have htail := ih (start + size)
    rw [Nat.add_assoc, ← List.sum_cons] at htail
    rw [consecutive]
    split
    · rename_i hzero
      rwa [hzero] at htail ⊢
    · exact .cons (r := ⟨start, start + size⟩) (by dsimp only; omega) htail

/-- The ranges have the given sizes, but for those that are zero. -/
theorem map_size_consecutive (start : Nat) (sizes : List Nat) :
    (consecutive start sizes).map Range.size = sizes.filter (· ≠ 0) := by
  induction sizes generalizing start with
  | nil => rfl
  | cons size rest ih =>
    rw [consecutive]
    by_cases hzero : size = 0
    · rw [if_pos hzero, ih, List.filter_cons_of_neg (by simpa using hzero)]
    · rw [if_neg hzero, List.map_cons, ih, List.filter_cons_of_pos (by simpa using hzero),
        Range.size, Nat.add_sub_cancel_left]

theorem length_shardSizes (len shards : Nat) : (shardSizes len shards).length = shards := by
  rw [shardSizes, List.length_map, List.length_range]

/-- The sizes of the shards differ by one at most, and the longer shards come first. -/
theorem pairwise_shardSizes (len shards : Nat) :
    (shardSizes len shards).Pairwise fun a b => b ≤ a ∧ a ≤ b + 1 := by
  rw [shardSizes, List.pairwise_map]
  refine List.pairwise_lt_range.imp fun {i j} hij => ?_
  split <;> split <;> omega

/-- No shard is without a member unless there are more shards than members. -/
theorem shardSizes_pos {len shards : Nat} (h : shards ≤ len) :
    ∀ size ∈ shardSizes len shards, size ≠ 0 := by
  intro size hsize
  obtain ⟨i, hi, rfl⟩ := List.mem_map.mp hsize
  have hpos : 0 < len / shards := Nat.div_pos h (Nat.zero_lt_of_lt (List.mem_range.mp hi))
  omega

/-- The sizes of the ranges of a partition. -/
theorem map_size_partition {len : Nat} (hlen : 0 < len) (shards : Nat) :
    (partition len shards).map Range.size = shardSizes len (min (max shards 1) len) := by
  rw [partition, map_size_consecutive, show max len 1 = len from Nat.max_eq_left hlen,
    List.filter_eq_self]
  exact fun size hsize => by simpa using shardSizes_pos (Nat.min_le_right _ _) size hsize

theorem partition_zero (shards : Nat) : partition 0 shards = [] := by
  rw [partition, show min (max shards 1) (max 0 1) = 1 by omega]
  rfl

/-- **A partition covers the whole length.** It has as many ranges as there are shards, but no more
than there are positions; they lie side by side, none of them empty, from the first position to the
last; their sizes differ by one at most, the longer ones first; and so the slices of a list make up
the list. -/
theorem partition_tiles (len shards : Nat) :
    (partition len shards).length = min (max shards 1) len ∧
    Tiles 0 (partition len shards) len ∧
    ((partition len shards).Pairwise fun a b => b.size ≤ a.size ∧ a.size ≤ b.size + 1) ∧
    ∀ (α : Type u) (l : List α), l.length = len →
      ((partition len shards).map (·.slice l)).flatten = l := by
  have htiles : Tiles 0 (partition len shards) len := by
    have hconsecutive := tiles_consecutive 0 (shardSizes len (min (max shards 1) (max len 1)))
    rwa [sum_shardSizes len (by omega), Nat.zero_add] at hconsecutive
  refine ⟨?_, htiles, ?_, fun α l hl => hl ▸ flatten_slices l shards⟩
  · rcases Nat.eq_zero_or_pos len with rfl | hlen
    · rw [partition_zero, Nat.min_zero, List.length_nil]
    · rw [← List.length_map, map_size_partition hlen, length_shardSizes]
  · rcases Nat.eq_zero_or_pos len with rfl | hlen
    · rw [partition_zero]
      exact .nil
    · have hsizes := pairwise_shardSizes len (min (max shards 1) len)
      rw [← map_size_partition hlen] at hsizes
      exact List.pairwise_map.mp hsizes

theorem partition_tiles_sample :
    ["first", "second", "third"].length = 3 ∧
    ((partition 3 2).map (·.slice ["first", "second", "third"])).flatten =
      ["first", "second", "third"] :=
  ⟨rfl, (partition_tiles 3 2).2.2.2 String ["first", "second", "third"] rfl⟩

/-! ## Chunks -/

/-- The first chunk is the beginning of the list, and the others are the chunks of the rest; a size
of zero counts as one. -/
theorem chunks_eq_cons_max (size : Nat) {l : List α} (hl : l ≠ []) :
    chunks size l = l.take (max size 1) :: chunks size (l.drop (max size 1)) := by
  obtain ⟨a, rest, rfl⟩ := List.exists_cons_of_ne_nil hl
  have hmax : max size 1 = (size - 1) + 1 := by omega
  rw [chunks.eq_def, hmax]
  rfl

theorem chunks_eq_cons {size : Nat} (hsize : 1 ≤ size) {l : List α} (hl : l ≠ []) :
    chunks size l = l.take size :: chunks size (l.drop size) := by
  have hcons := chunks_eq_cons_max size hl
  rwa [Nat.max_eq_left hsize] at hcons

/-- **The first chunks of a list make up its first members.** All chunks before the last one are
full. -/
theorem flatten_take_chunks_max (size : Nat) (l : List α) (j : Nat) :
    ((chunks size l).take j).flatten = l.take (max size 1 * j) := by
  induction j generalizing l with
  | zero => simp
  | succ j ih =>
    by_cases hl : l = []
    · subst hl
      simp [chunks]
    · rw [chunks_eq_cons_max size hl, List.take_succ_cons, List.flatten_cons, ih, Nat.mul_succ,
        Nat.add_comm, List.take_add]

theorem flatten_take_chunks {size : Nat} (hsize : 1 ≤ size) (l : List α) (j : Nat) :
    ((chunks size l).take j).flatten = l.take (size * j) := by
  have htake := flatten_take_chunks_max size l j
  rwa [Nat.max_eq_left hsize] at htake

end CoChange
