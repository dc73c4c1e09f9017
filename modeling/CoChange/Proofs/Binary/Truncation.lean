import CoChange.Metrics.Binary
import CoChange.Proofs.Binary

/-!
# Cut off binary forms are refused

A reader is *settled* if what it reads from some bytes it reads from them also when more bytes
follow, which it leaves over (`Settled`). All readers of binary forms are. A settled reader that
reads a value back from its bytes, whatever follows them, cannot read anything from a part of these
bytes: it would have to leave over what was cut off.

* **`Settled.bind`**: readers that are put one behind the other are settled if each of them is.
* **`settled_string`**, **`Settled.prod`**, **`Settled.option`**, **`Settled.list`**,
  **`Settled.map`**: so are the forms that are put together.
* **`Codec.Reads.error_of_part`**: a settled form refuses every part of the bytes of a value.
-/

namespace CoChange

namespace Binary

/-! ## Settled readers -/

/-- Takes a value off the front of some bytes. -/
abbrev Reader (α : Type) := Bytes → Except CodecError (α × Bytes)

/-- What is read from some bytes is also read from them with more behind, and those are left
over. -/
def Settled (read : Reader α) : Prop :=
  ∀ bytes a rest, read bytes = .ok (a, rest) →
    ∀ more, read (bytes ++ more) = .ok (a, rest ++ more)

theorem settled_return (a : α) : Settled fun bytes => .ok (a, bytes) := by
  intro bytes a' rest h more
  cases h
  rfl

theorem settled_throw (e : CodecError) : Settled (α := α) fun _ => .error e := by
  intro bytes a rest h
  exact absurd h (by simp)

/-- A value that may be missing, whatever bytes there are. -/
theorem settled_elim (o : Option α) (e : CodecError) :
    Settled fun bytes => o.elim (.error e) fun a => .ok (a, bytes) := by
  cases o with
  | none => exact settled_throw e
  | some a => exact settled_return a

/-- **Readers one behind the other are settled** if each of them is. If the first one fails on a
beginning of the bytes, so do both; if it does not, the second one is met with a beginning of what
it was met with. -/
theorem Settled.bind {read : Reader α} (h : Settled read) {next : α → Reader β}
    (hnext : ∀ a, Settled (next a)) : Settled fun bytes =>
      read bytes >>= fun p => next p.1 p.2 := by
  intro bytes b rest hb more
  obtain ⟨p, hread, hb⟩ := bind_eq_ok_iff.mp hb
  simp only
  rw [h bytes p.1 p.2 hread more, ok_bind, hnext p.1 p.2 b rest hb more]

/-- To take bytes off is settled: what is taken does not depend on what comes behind, and with fewer
bytes it fails. -/
theorem settled_takeBytes (n : Nat) : Settled (takeBytes n) := by
  intro bytes word rest h more
  rw [takeBytes] at h
  split at h
  · rename_i hn
    cases h
    rw [takeBytes, if_pos (by rw [List.length_append]; omega), List.take_append_of_le_length hn,
      List.drop_append_of_le_length hn]
  · exact absurd h (by simp)

/-! ## Settled forms -/

open Codec (word nat string oneOf)

theorem settled_word (width : Nat) : Settled (word width).decode :=
  (settled_takeBytes width).bind fun w => settled_return (ofLittleEndian w)

theorem settled_nat : Settled Codec.nat.decode := settled_word 8

/-- A string is settled, as its length is, and then the bytes that the length asks for. -/
theorem settled_string : Settled string.decode := by
  have hdecode : string.decode =
      fun bytes => nat.decode bytes >>= fun n => takeBytes n.1 n.2 >>= fun w =>
      (String.fromUTF8? ⟨w.1.toArray⟩).elim (.error .invalidText) fun s => .ok (s, w.2) := by
    refine funext fun bytes => bind_congr fun n => bind_congr fun w => ?_
    obtain ⟨text, rest⟩ := w
    cases h : String.fromUTF8? ⟨text.toArray⟩ <;> simp only [h] <;> rfl
  rw [hdecode]
  exact settled_nat.bind fun n => (settled_takeBytes n).bind fun text =>
    settled_elim (String.fromUTF8? ⟨text.toArray⟩) .invalidText

/-- A value out of a list is settled by the four bytes of its position. -/
theorem settled_oneOf [DecidableEq α] (values : List α) : Settled (oneOf values).decode := by
  have hdecode : (oneOf values).decode = fun bytes => (word 4).decode bytes >>= fun tag =>
      (values[tag.1]?).elim (.error (.invalidTag tag.1)) fun a => .ok (a, tag.2) := by
    refine funext fun bytes => bind_congr fun tag => ?_
    cases h : values[tag.1]? <;> simp only [h] <;> rfl
  rw [hdecode]
  exact (settled_word 4).bind fun tag => settled_elim values[tag]? (.invalidTag tag)

section Combined

variable {c : Codec α} {d : Codec β} (h : Settled c.decode)

include h

theorem Settled.imap (into : α → β) (from_ : β → α) : Settled (c.imap into from_).decode :=
  h.bind fun a => settled_return (into a)

theorem Settled.prod (h' : Settled d.decode) : Settled (c.prod d).decode :=
  h.bind fun a => h'.bind fun b => settled_return (a, b)

/-- A value that may be missing is settled by its first byte and, if there is a value, by that. -/
theorem Settled.option : Settled (Codec.option c).decode := by
  intro bytes o rest ho more
  match bytes with
  | [] => exact absurd ho (by simp [Codec.option])
  | tag :: bytes =>
    by_cases hzero : tag = 0
    · subst hzero
      exact settled_return none bytes o rest ho more
    · by_cases hone : tag = 1
      · subst hone
        exact h.bind (fun a => settled_return (some a)) bytes o rest ho more
      · -- any other byte is refused
        have hother : (Codec.option c).decode (tag :: bytes) = .error (.invalidTag tag.toNat) := by
          simp only [Codec.option]
        rw [hother] at ho
        exact absurd ho (by simp)

theorem settled_decodeMany (n : Nat) : Settled (Codec.decodeMany c n) := by
  induction n with
  | zero => exact settled_return []
  | succ n ih => exact h.bind fun a => ih.bind fun l => settled_return (a :: l)

theorem Settled.list : Settled (Codec.list c).decode :=
  settled_nat.bind fun n => settled_decodeMany h n

theorem Settled.map : Settled (Codec.map c).decode :=
  (settled_string.prod h).list.imap _ _

end Combined

/-! ## Parts of a written value -/

/-- The form reads the value from the bytes, whatever follows them. -/
def Codec.Reads (c : Codec α) (bytes : Bytes) (a : α) : Prop :=
  ∀ rest, c.decode (bytes ++ rest) = .ok (a, rest)

/-- **A part of the bytes of a value is refused.** Nothing can be read from it: with the bytes that
were cut off, the same would be read, and these bytes would be left over. -/
theorem Codec.Reads.error_of_part {c : Codec α} {bytes : Bytes} {a : α} (h : c.Reads bytes a)
    (hc : Settled c.decode) {part : Bytes} (hpart : part <+: bytes) (hne : part ≠ bytes) :
    ∃ e, c.decode part = .error e := by
  obtain ⟨off, rfl⟩ := hpart
  cases hread : c.decode part with
  | error e => exact ⟨e, rfl⟩
  | ok p =>
    have hwhole := hc part p.1 p.2 hread off
    have hnone := h []
    rw [List.append_nil, hwhole] at hnone
    have hoff : p.2 ++ off = [] := (Prod.mk.inj (Except.ok.inj hnone)).2
    rw [(List.append_eq_nil_iff.mp hoff).2, List.append_nil] at hne
    exact absurd rfl hne

end Binary

/-! ## The forms of states and of metrics -/

open Binary

/-- States are settled, because they are put together from parts that are. -/
theorem EngineState.settled_codec : Settled EngineState.codec.decode := by
  have hunit : Settled CodeUnit.codec.decode :=
    (settled_string.prod (settled_string.prod settled_string)).imap _ _
  have hentry : Settled Entry.codec.decode :=
    (hunit.prod (settled_nat.prod settled_nat.map)).imap _ _
  exact (hentry.map.prod (settled_string.list.prod
    (settled_nat.prod settled_string.option))).imap _ _

/-- Metrics are settled, because they are put together from parts that are. -/
theorem Metrics.settled_codec : Settled Metrics.codec.decode := by
  have hfloat : Settled Codec.float.decode := settled_nat.imap _ _
  have hunit : Settled CodeUnit.reportCodec.decode :=
    (settled_string.prod (settled_string.prod settled_string)).imap _ _
  have hname : Settled UnitName.codec.decode := (settled_string.prod settled_string).imap _ _
  have hhotness : Settled Hotness.codec.decode :=
    (hunit.prod (settled_nat.prod (settled_nat.prod hfloat))).imap _ _
  have hcoupling : Settled Coupling.codec.decode :=
    (hname.prod (hname.prod (settled_nat.prod hfloat))).imap _ _
  have hhotspot : Settled Hotspot.codec.decode :=
    (hunit.prod (settled_nat.prod (settled_oneOf _))).imap _ _
  have htotals : Settled Totals.codec.decode :=
    (settled_nat.prod (settled_nat.prod (settled_nat.prod (hfloat.prod
      (hfloat.prod settled_nat))))).imap _ _
  exact (hhotness.list.prod (hcoupling.list.prod (hhotspot.list.prod htotals))).imap _ _

end CoChange
