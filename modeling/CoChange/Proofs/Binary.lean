import CoChange.Engine.Binary
import CoChange.Proofs.SortedMap
import CoChange.Proofs.Text

/-!
# Binary forms are read back

A binary form *restores* a value if it reads the value back from its bytes, whatever bytes follow
(`Codec.Restores`). Numbers and lengths are written as words, so they have to fit one:

* **`restores_word`**, **`restores_string`**: the forms of numbers and texts restore what fits.
* **`Restores.prod`**, **`Restores.option`**, **`restores_list`**, **`restores_map`**: the forms
  that are put together restore what their parts restore.
* **`EngineState.ofBinary_toBinary`**: a state whose numbers and lengths fit (`EngineState.Fits`) is
  read back from its bytes.
-/

namespace CoChange

namespace Binary

/-! ## Words -/

@[simp] theorem length_littleEndian (width n : Nat) : (littleEndian width n).length = width := by
  induction width generalizing n with
  | zero => rfl
  | succ width ih => rw [littleEndian, List.length_cons, ih]

/-- Bytes of a number are read back as the number, if the width is enough for it. The induction is
on the width, one byte at a time. -/
theorem ofLittleEndian_littleEndian {width n : Nat} (h : n < 256 ^ width) :
    ofLittleEndian (littleEndian width n) = n := by
  induction width generalizing n with
  | zero => rw [Nat.pow_zero, Nat.lt_one_iff] at h; rw [h]; rfl
  | succ width ih =>
    rw [Nat.pow_succ, Nat.mul_comm] at h
    rw [littleEndian, ofLittleEndian, ih (Nat.div_lt_of_lt_mul h), UInt8.toNat_ofNat',
      Nat.mod_mod]
    exact Nat.mod_add_div n 256

theorem takeBytes_append {n : Nat} {bytes : Bytes} (h : bytes.length = n) (rest : Bytes) :
    takeBytes n (bytes ++ rest) = .ok (bytes, rest) := by
  subst h
  rw [takeBytes, if_pos (by simp), List.take_left, List.drop_left]

/-! ## Forms that restore -/

/-- The form reads the value back from its bytes, with the bytes that follow left over. -/
def Codec.Restores (c : Codec α) (a : α) : Prop :=
  ∀ rest, c.decode (c.encode a ++ rest) = .ok (a, rest)

def TextFits (s : String) : Prop := s.utf8ByteSize < UInt64.size

instance (s : String) : Decidable (TextFits s) := Nat.decLt _ _

namespace Codec

variable {c : Codec α} {d : Codec β}

theorem restores_word {width n : Nat} (h : n < 256 ^ width) : (word width).Restores n := by
  intro rest
  show (takeBytes width (littleEndian width n ++ rest) >>= fun p =>
    Except.ok (ofLittleEndian p.1, p.2)) = _
  rw [takeBytes_append (length_littleEndian width n), ok_bind, ofLittleEndian_littleEndian h]

theorem restores_nat {n : Nat} (h : n < UInt64.size) : nat.Restores n :=
  restores_word (Nat.lt_of_lt_of_eq h (by decide))

/-- A string is read back if its length fits: the length comes first and says how many bytes to
take, and these are the encoding of a valid text. -/
theorem restores_string {s : String} (h : TextFits s) : string.Restores s := by
  intro rest
  have hbytes : string.encode s ++ rest =
      nat.encode s.utf8ByteSize ++ (s.toUTF8.toList ++ rest) := List.append_assoc _ _ _
  rw [hbytes, string]
  simp only [restores_nat h (s.toUTF8.toList ++ rest), ok_bind,
    takeBytes_append (length_toUTF8 s) rest, fromUTF8?_toUTF8]
  rfl

theorem Restores.imap {a : α} (h : c.Restores a) {into : α → β} {from_ : β → α} {b : β}
    (hfrom : from_ b = a) (hinto : into a = b) : (c.imap into from_).Restores b := by
  intro rest
  show (c.decode (c.encode (from_ b) ++ rest) >>= fun p => Except.ok (into p.1, p.2)) = _
  rw [hfrom, h, ok_bind, hinto]

/-- A pair is read back part by part, each in front of what comes behind it. -/
theorem Restores.prod {a : α} {b : β} (h : c.Restores a) (h' : d.Restores b) :
    (c.prod d).Restores (a, b) := by
  intro rest
  show (c.decode (c.encode a ++ d.encode b ++ rest) >>= fun p =>
    d.decode p.2 >>= fun p' => Except.ok ((p.1, p'.1), p'.2)) = _
  rw [List.append_assoc, h, ok_bind, h', ok_bind]

/-- What may be missing is read back as missing or as what it is; the first byte tells which. -/
theorem Restores.option {o : Option α} (h : ∀ a, o = some a → c.Restores a) :
    (option c).Restores o := by
  intro rest
  cases o with
  | none => rfl
  | some a =>
    show (c.decode (c.encode a ++ rest) >>= fun p => Except.ok (some p.1, p.2)) = _
    rw [h a rfl, ok_bind]

/-- As many values as were written are read back one after the other, and what comes behind them is
left. -/
theorem decodeMany_flatMap {l : List α} (h : ∀ a ∈ l, c.Restores a) (rest : Bytes) :
    decodeMany c l.length (l.flatMap c.encode ++ rest) = .ok (l, rest) := by
  induction l with
  | nil => rfl
  | cons a l ih =>
    rw [List.forall_mem_cons] at h
    show (c.decode (c.encode a ++ l.flatMap c.encode ++ rest) >>= fun p =>
      decodeMany c l.length p.2 >>= fun p' => Except.ok (p.1 :: p'.1, p'.2)) = _
    rw [List.append_assoc, h.1, ok_bind, ih h.2, ok_bind]

/-- A list is read back if its length fits and all of its members are. -/
theorem restores_list {l : List α} (hlength : l.length < UInt64.size) (h : ∀ a ∈ l, c.Restores a) :
    (list c).Restores l := by
  intro rest
  show (nat.decode (nat.encode l.length ++ l.flatMap c.encode ++ rest) >>= fun p =>
    decodeMany c p.1 p.2) = _
  rw [List.append_assoc, restores_nat hlength, ok_bind, decodeMany_flatMap h]

theorem restores_map {m : SortedMap String α} (hsize : m.size < UInt64.size)
    (h : ∀ e ∈ m.toList, TextFits e.1 ∧ c.Restores e.2) : (map c).Restores m :=
  (restores_list hsize fun e he => (restores_string (h e he).1).prod (h e he).2).imap rfl
    (SortedMap.ofList_toList m)

end Codec

end Binary

/-! ## States of an engine -/

open Binary (Codec TextFits)

/-- The lengths of the parts of a unit fit a word. -/
structure CodeUnit.Fits (u : CodeUnit) : Prop where
  kind : TextFits u.kind
  name : TextFits u.name
  file : TextFits u.file

instance (u : CodeUnit) : Decidable u.Fits :=
  decidable_of_iff (TextFits u.kind ∧ TextFits u.name ∧ TextFits u.file)
    ⟨fun ⟨hk, hn, hf⟩ => ⟨hk, hn, hf⟩, fun ⟨hk, hn, hf⟩ => ⟨hk, hn, hf⟩⟩

theorem CodeUnit.Fits.restores {u : CodeUnit} (h : u.Fits) : CodeUnit.codec.Restores u :=
  ((Codec.restores_string h.kind).prod
    ((Codec.restores_string h.name).prod (Codec.restores_string h.file))).imap rfl rfl

/-- The numbers and lengths of an entry fit a word. -/
structure Entry.Fits (e : Entry) : Prop where
  unit : e.unit.Fits
  count : e.count < UInt64.size
  peers : e.couples.size < UInt64.size
  couples : ∀ c ∈ e.couples.toList, TextFits c.1 ∧ c.2 < UInt64.size

instance (e : Entry) : Decidable e.Fits :=
  decidable_of_iff (e.unit.Fits ∧ e.count < UInt64.size ∧ e.couples.size < UInt64.size ∧
      ∀ c ∈ e.couples.toList, TextFits c.1 ∧ c.2 < UInt64.size)
    ⟨fun ⟨hu, hn, hp, hc⟩ => ⟨hu, hn, hp, hc⟩, fun ⟨hu, hn, hp, hc⟩ => ⟨hu, hn, hp, hc⟩⟩

theorem Entry.Fits.restores {e : Entry} (h : e.Fits) : Entry.codec.Restores e :=
  (h.unit.restores.prod ((Codec.restores_nat h.count).prod (Codec.restores_map h.peers fun c hc =>
    ⟨(h.couples c hc).1, Codec.restores_nat (h.couples c hc).2⟩))).imap rfl rfl

namespace EngineState

/-- The numbers and lengths of a state fit a word. -/
structure Fits (s : EngineState) : Prop where
  size : s.entries.size < UInt64.size
  entries : ∀ e ∈ s.entries.toList, TextFits e.1 ∧ e.2.Fits
  log : s.merges.length < UInt64.size
  merges : ∀ hash ∈ s.merges, TextFits hash
  processed : s.processed < UInt64.size
  last : ∀ hash, s.last = some hash → TextFits hash

instance (s : EngineState) : Decidable s.Fits :=
  decidable_of_iff (s.entries.size < UInt64.size ∧
    (∀ e ∈ s.entries.toList, TextFits e.1 ∧ e.2.Fits) ∧
      s.merges.length < UInt64.size ∧
      (∀ hash ∈ s.merges, TextFits hash) ∧ s.processed < UInt64.size ∧
      ∀ hash ∈ s.last.toList, TextFits hash)
    ⟨fun ⟨hs, he, hl, hm, hp, h⟩ => ⟨hs, he, hl, hm, hp, fun hash hh => h hash (by simp [hh])⟩,
      fun ⟨hs, he, hl, hm, hp, h⟩ =>
        ⟨hs, he, hl, hm, hp, fun hash hh => h hash (by simpa using hh)⟩⟩

/-- A state that fits is read back, entries first, then merges, position and last commit. -/
theorem Fits.restores {s : EngineState} (h : s.Fits) : codec.Restores s :=
  ((Codec.restores_map h.size fun e he => ⟨(h.entries e he).1, (h.entries e he).2.restores⟩).prod
    ((Codec.restores_list h.log fun hash hm => Codec.restores_string (h.merges hash hm)).prod
      ((Codec.restores_nat h.processed).prod
        (Codec.Restores.option fun hash hl => Codec.restores_string (h.last hash hl))))).imap
          rfl rfl

/-- **A state is read back from its bytes**, also with other bytes behind them. Bytes behind the
state are ignored, as the reader stops where the state ends. -/
theorem ofBinary_toBinary {s : EngineState} (h : s.Fits) (rest : Binary.Bytes) :
    ofBinary (s.toBinary ++ rest) = .ok s := by
  rw [ofBinary, toBinary, h.restores rest]

end EngineState

end CoChange
