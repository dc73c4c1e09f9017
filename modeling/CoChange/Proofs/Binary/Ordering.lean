import CoChange.Proofs.Binary.Truncation
import CoChange.Proofs.Checkpoint.Resuming
import Mathlib.Algebra.BigOperators.Group.List.Basic
import Mathlib.Data.List.Forall2

/-!
# States in binary form, whatever the order of their maps

The entries of a map stand in a binary form in an order that its writer chooses. A `Writing` says
which bytes may stand for a value: `Writing.map` admits every order of the entries, for the map of
units as well as for the peers of each of them (`EngineState.Written`).

* **`Writing.ReadBack`**: from all bytes that stand for a value the value is read, they are equally
  many, and those of the form itself are among them. **`ReadBack.prod`** and **`ReadBack.map`** put
  this together.
* **`EngineState.written_restores`**: a state is read back from every way to write it and from no
  part of one, and an engine that takes it over goes on where the saved one stood.
-/

namespace CoChange

namespace Binary

/-- A way of writing that may leave a choice: which bytes may stand for a value. -/
abbrev Writing (α : Type) := α → Bytes → Prop

namespace Writing

/-- The one way of a binary form. -/
def only (c : Codec α) : Writing α := fun a bytes => bytes = c.encode a

/-- The same writing for another type, of whose values a function makes such as can be written. -/
def imap (w : Writing α) (from_ : β → α) : Writing β := fun b => w (from_ b)

/-- Two values, one behind the other. -/
def prod (w : Writing α) (w' : Writing β) : Writing (α × β) := fun p bytes =>
  ∃ front back, w p.1 front ∧ w' p.2 back ∧ bytes = front ++ back

/-- A map: the number of its entries, and the entries in any order. -/
def map (w : Writing α) : Writing (SortedMap String α) := fun m bytes =>
  ∃ (order : List (String × α)) (parts : List Bytes), order.Perm m.toList ∧
    List.Forall₂ ((only Codec.string).prod w) order parts ∧
    bytes = Codec.nat.encode m.size ++ parts.flatten

/-- The form reads the value from all bytes that may stand for it; they are as many as its own,
which are among them. -/
structure ReadBack (w : Writing α) (c : Codec α) (a : α) : Prop where
  own : w a (c.encode a)
  reads : ∀ bytes, w a bytes → c.Reads bytes a
  length : ∀ bytes, w a bytes → bytes.length = (c.encode a).length

/-- A way to write that has one form only reads back what the form restores. -/
theorem readBack_only {c : Codec α} {a : α} (h : c.Restores a) : ReadBack (only c) c a where
  own := rfl
  reads := by
    rintro bytes rfl
    exact h
  length := by
    rintro bytes rfl
    rfl

namespace ReadBack

variable {w : Writing α} {c : Codec α} {w' : Writing β} {d : Codec β}

/-- What a value is turned into is read back if the value is, and turning it back gives the
value. -/
theorem imap {a : α} (h : ReadBack w c a) {into : α → β} {from_ : β → α} {b : β}
    (hfrom : from_ b = a) (hinto : into a = b) :
    ReadBack (w.imap from_) (c.imap into from_) b := by
  subst hfrom
  refine ⟨h.own, fun bytes hb rest => ?_, h.length⟩
  show (c.decode (bytes ++ rest) >>= fun p => Except.ok (into p.1, p.2)) = _
  rw [h.reads bytes hb, ok_bind, hinto]

/-- Pairs are read back part by part: each form of the first part may be followed by each form of
the second one, and what is cut off is cut off in one of the two. -/
theorem prod {p : α × β} (h : ReadBack w c p.1) (h' : ReadBack w' d p.2) :
    ReadBack (w.prod w') (c.prod d) p where
  own := ⟨_, _, h.own, h'.own, rfl⟩
  reads := by
    rintro bytes ⟨front, back, hfront, hback, rfl⟩ rest
    show (c.decode (front ++ back ++ rest) >>= fun q =>
      d.decode q.2 >>= fun q' => Except.ok ((q.1, q'.1), q'.2)) = _
    rw [List.append_assoc, h.reads front hfront, ok_bind, h'.reads back hback, ok_bind]
  length := by
    rintro bytes ⟨front, back, hfront, hback, rfl⟩
    show _ = (c.encode p.1 ++ d.encode p.2).length
    rw [List.length_append, List.length_append, h.length front hfront, h'.length back hback]

end ReadBack

/-! ## Maps in any order -/

section Map

variable {c : Codec α} {l : List α} {parts : List Bytes}

/-- Parts that are read as the members of a list one by one are read as the list, whatever form each
of them was written in. -/
theorem decodeMany_flatten (h : List.Forall₂ (fun a part => c.Reads part a) l parts)
    (rest : Bytes) :
    Codec.decodeMany c l.length (parts.flatten ++ rest) = .ok (l, rest) := by
  induction h with
  | nil => rfl
  | @cons a part l parts hpart _ ih =>
    show (c.decode (part ++ parts.flatten ++ rest) >>= fun p =>
      Codec.decodeMany c l.length p.2 >>= fun p' => Except.ok (p.1 :: p'.1, p'.2)) = _
    rw [List.append_assoc, hpart, ok_bind, ih, ok_bind]

/-- Parts that are as long as those the codec writes are as long as these together. -/
theorem length_flatten_parts
    (h : List.Forall₂ (fun a part => part.length = (c.encode a).length) l parts) :
    parts.flatten.length = (l.map fun a => (c.encode a).length).sum := by
  induction h with
  | nil => rfl
  | cons hpart _ ih =>
    rw [List.flatten_cons, List.length_append, List.map_cons, List.sum_cons, hpart, ih]

end Map

/-- **A map is read back from its entries in any order.** An order of entries only permutes the
list, and a map that is built of a permuted list with different keys is the same map. -/
theorem ReadBack.map {w : Writing α} {c : Codec α} {m : SortedMap String α}
    (hsize : m.size < UInt64.size) (h : ∀ e ∈ m.toList, TextFits e.1 ∧ ReadBack w c e.2) :
    ReadBack w.map (Codec.map c) m := by
  have hentry : ∀ e ∈ m.toList, ReadBack ((only Codec.string).prod w) (Codec.string.prod c) e :=
    fun e he => (readBack_only (Codec.restores_string (h e he).1)).prod (h e he).2
  -- what holds of each entry of the map holds of each entry of a list of them
  have hlisted : ∀ {order parts}, order.Perm m.toList →
      List.Forall₂ ((only Codec.string).prod w) order parts →
      List.Forall₂ (fun e part => (Codec.string.prod c).Reads part e ∧
        part.length = ((Codec.string.prod c).encode e).length) order parts := by
    intro order parts hperm hparts
    have hmem := (List.forall₂_and_left order parts).mpr ⟨fun e he => hperm.mem_iff.mp he, hparts⟩
    exact hmem.imp fun e part hp =>
      ⟨(hentry e hp.1).reads part hp.2, (hentry e hp.1).length part hp.2⟩
  refine ⟨⟨m.toList, m.toList.map (Codec.string.prod c).encode, .refl _, ?_, ?_⟩, ?_, ?_⟩
  · rw [List.forall₂_map_right_iff, List.forall₂_same]
    exact fun e he => (hentry e he).own
  · rw [← List.flatMap_def]
    rfl
  · rintro bytes ⟨order, parts, hperm, hparts, rfl⟩ rest
    have hreads := (hlisted hperm hparts).imp fun _ _ => And.left
    have hcount : m.size = order.length := hperm.length_eq.symm
    have hlist : (Codec.list (Codec.string.prod c)).decode
        (Codec.nat.encode m.size ++ parts.flatten ++ rest) = .ok (order, rest) := by
      show (Codec.nat.decode _ >>= fun p => Codec.decodeMany _ p.1 p.2) = _
      rw [List.append_assoc, Codec.restores_nat hsize, ok_bind, hcount, decodeMany_flatten hreads]
    show ((Codec.list (Codec.string.prod c)).decode _ >>= fun p =>
      Except.ok (SortedMap.ofList p.1, p.2)) = _
    rw [hlist, ok_bind, SortedMap.ofList_perm hperm]
  · rintro bytes ⟨order, parts, hperm, hparts, rfl⟩
    have hlengths := (hlisted hperm hparts).imp fun _ _ => And.right
    show _ = (Codec.nat.encode m.size ++ m.toList.flatMap (Codec.string.prod c).encode).length
    rw [List.length_append, List.length_append, length_flatten_parts hlengths, List.length_flatMap,
      (hperm.map _).sum_eq]

end Writing

end Binary

/-! ## States of an engine -/

open Binary (Bytes Codec Writing)

/-- The ways to write an entry: its peers stand in any order. -/
def Entry.Written : Writing Entry :=
  ((Writing.only CodeUnit.codec).prod ((Writing.only Codec.nat).prod
    (Writing.only Codec.nat).map)).imap fun e => (e.unit, e.count, e.couples)

/-- An entry that fits is read back with its peers in any order. -/
theorem Entry.Fits.readBack {e : Entry} (h : e.Fits) :
    Writing.ReadBack Entry.Written Entry.codec e :=
  ((Writing.readBack_only h.unit.restores).prod
    ((Writing.readBack_only (Codec.restores_nat h.count)).prod
      (Writing.ReadBack.map h.peers fun c hc => ⟨(h.couples c hc).1,
        Writing.readBack_only (Codec.restores_nat (h.couples c hc).2)⟩))).imap rfl rfl

namespace EngineState

/-- The ways to write a state: its units stand in any order, and so do the peers of each of them. -/
def Written : Writing EngineState :=
  (Entry.Written.map.prod ((Writing.only (Codec.list Codec.string)).prod
    ((Writing.only Codec.nat).prod (Writing.only (Codec.option Codec.string))))).imap
    fun s => (s.entries, s.merges, s.processed, s.last)

/-- A state that fits is read back with its entries in any order, and with the peers of each in any
order. -/
theorem Fits.readBack {s : EngineState} (h : s.Fits) : Writing.ReadBack Written codec s :=
  ((Writing.ReadBack.map h.size fun e he => ⟨(h.entries e he).1, (h.entries e he).2.readBack⟩).prod
    ((Writing.readBack_only (Codec.restores_list h.log fun hash hm =>
        Codec.restores_string (h.merges hash hm))).prod
      ((Writing.readBack_only (Codec.restores_nat h.processed)).prod
        (Writing.readBack_only (Codec.Restores.option fun hash hl =>
          Codec.restores_string (h.last hash hl)))))).imap rfl rfl

/-- A part of the bytes of a state is refused. -/
theorem ofBinary_of_part {s : EngineState} {bytes part : Bytes} (h : codec.Reads bytes s)
    (hpart : part <+: bytes) (hne : part ≠ bytes) :
    ∃ detail, ofBinary part = .error (.codec detail) := by
  obtain ⟨e, he⟩ := h.error_of_part settled_codec hpart hne
  exact ⟨e.message, by rw [ofBinary, he]⟩

/-- **A state is read back from every way to write it.** For each order of its units and of their
peers: the written state has as many bytes as in any other order, it is read as the state, also with
other bytes behind it, none of its parts is read, and an engine that takes the state over has the
entries, the merges, the position and the last commit of the engine that was saved. -/
theorem written_restores {s : EngineState} (h : s.Fits) :
    s.Written s.toBinary ∧ ∀ bytes, s.Written bytes →
      bytes.length = s.toBinary.length ∧
      (∀ rest, ofBinary (bytes ++ rest) = .ok s) ∧
      (∀ part, part <+: bytes → part ≠ bytes → ∃ detail, ofBinary part = .error (.codec detail)) ∧
      ∀ saved fresh : Engine, saved.state = s →
        ∃ restored, (fresh.restore <$> ofBinary bytes) = .ok restored ∧
        restored.registry = .ofEntries saved.registry.entries ∧
        restored.merges.hashes = saved.merges.hashes ∧
        restored.processed = saved.processed ∧ restored.last = saved.last := by
  refine ⟨h.readBack.own, fun bytes hbytes => ?_⟩
  have hreads : codec.Reads bytes s := h.readBack.reads bytes hbytes
  have hread : ∀ rest, ofBinary (bytes ++ rest) = .ok s := fun rest => by rw [ofBinary, hreads rest]
  refine ⟨h.readBack.length bytes hbytes, hread, fun part => ofBinary_of_part hreads, ?_⟩
  rintro saved fresh rfl
  refine ⟨fresh.restore saved.state, ?_, rfl, MergeLog.hashes_ofHashes _, rfl, rfl⟩
  have hwhole := hread []
  rw [List.append_nil] at hwhole
  rw [hwhole]
  rfl

namespace Sample

/-- Two units that changed together once. -/
def pair : Entries := .ofList
  [("Function_f_a.go", ⟨⟨"Function", "f", "a.go"⟩, 2, .ofList [("Function_g_b.go", 1)]⟩),
    ("Function_g_b.go", ⟨⟨"Function", "g", "b.go"⟩, 1, .ofList [("Function_f_a.go", 1)]⟩)]

/-- The state after four commits, of which one was a merge. -/
def pairState : EngineState := ⟨pair, ["m1"], 4, some "c4"⟩

/-- The units in binary form, the last one first. -/
def reversedUnits : Bytes :=
  Codec.nat.encode 2 ++ (pair.toList.reverse.map (Codec.string.prod Entry.codec).encode).flatten

/-- The state in binary form, with the last unit first. -/
def reversedBytes : Bytes :=
  reversedUnits ++ ((Codec.list Codec.string).encode ["m1"] ++
    (Codec.nat.encode 4 ++ (Codec.option Codec.string).encode (some "c4")))

theorem fits_pairState : pairState.Fits := by decide +kernel

/-- The bytes with the last unit first are among the ways to write the state. -/
theorem written_reversedBytes : pairState.Written reversedBytes := by
  have hentry : ∀ e ∈ pair.toList.reverse,
      ((Writing.only Codec.string).prod Entry.Written)
        e ((Codec.string.prod Entry.codec).encode e) := by
    intro e he
    have hfits := fits_pairState.entries e (List.mem_reverse.mp he)
    exact ((Writing.readBack_only (Codec.restores_string hfits.1)).prod hfits.2.readBack).own
  have hunits : Entry.Written.map pair reversedUnits :=
    ⟨pair.toList.reverse, _, List.reverse_perm _,
      List.forall₂_map_right_iff.mpr (List.forall₂_same.mpr hentry), rfl⟩
  exact ⟨reversedUnits, _, hunits, ⟨_, _, rfl, ⟨_, _, rfl, rfl, rfl⟩, rfl⟩, rfl⟩

end Sample

/-- The state is written with the last unit first. It is read back from these bytes, also with more
behind them and not without their end, and an engine that takes it over has the same units. -/
theorem written_restores_sample :
    let saved := (Engine.new CoChange.Sample.query 0).restore Sample.pairState
    Sample.pairState.Fits ∧ Sample.pairState.Written Sample.reversedBytes ∧
    Sample.reversedBytes ≠ Sample.pairState.toBinary ∧ saved.state = Sample.pairState ∧
    Sample.reversedBytes.length = Sample.pairState.toBinary.length ∧
    ofBinary (Sample.reversedBytes ++ [7]) = .ok Sample.pairState ∧
    (∃ detail, ofBinary (Sample.reversedBytes.take 100) = .error (.codec detail)) ∧
    ∃ restored, (saved.reset.restore <$> ofBinary Sample.reversedBytes) = .ok restored ∧
      restored.registry = .ofEntries Sample.pair ∧ restored.merges.hashes = ["m1"] := by
  intro saved
  obtain ⟨_, hall⟩ := written_restores Sample.fits_pairState
  obtain ⟨hlength, hread, hpart, hengine⟩ := hall _ Sample.written_reversedBytes
  have hshorter : Sample.reversedBytes.take 100 ≠ Sample.reversedBytes := by decide +kernel
  have hstate : saved.state = Sample.pairState := rfl
  obtain ⟨restored, hrestored, hregistry, hmerges, _, _⟩ := hengine saved saved.reset hstate
  exact ⟨Sample.fits_pairState, Sample.written_reversedBytes, by decide +kernel, hstate, hlength,
    hread [7], hpart _ (List.take_prefix 100 _) hshorter, restored, hrestored, hregistry, hmerges⟩

end EngineState

end CoChange
