import Mathlib.Algebra.Group.Defs
import CoChange.Arithmetic
import CoChange.Proofs.Binary.Truncation
import CoChange.Report.Saved

/-!
# Binary reports

A binary report is a magic word, a version and the metrics. Metrics whose numbers and lengths fit a
word (`Metrics.Fits`) are read back from it with every bit of their floating point numbers.

* **`Metrics.Fits.restores`**: the binary form restores such metrics.
* **`Metrics.ofBinary_whole`**, **`Metrics.ofBinary_of_part`**: what is read from a report of some
  version, and from a part of a report.
* **`Metrics.envelope_restores`**: the two together, and what becomes of the report when it is shown
  again.
-/

namespace CoChange

open Binary (Bytes Codec TextFits littleEndian)

namespace Binary.Codec

theorem restores_float (x : Binary64) : float.Restores x :=
  (restores_nat (UInt64.toNat_lt x.bits)).imap rfl
    (congrArg Binary64.mk (UInt64.ofNat_toNat (x := x.bits)))

/-- A value out of a list is written as its position and found again by it. The list may be as long
as four bytes can count, and a value that occurs twice is found at its first position. -/
theorem restores_oneOf [DecidableEq α] {values : List α} {a : α} (ha : a ∈ values)
    (hlength : values.length < 256 ^ 4) : (oneOf values).Restores a := by
  intro rest
  have hidx : values.idxOf a < values.length := List.idxOf_lt_length_of_mem ha
  have htag : (word 4).decode ((word 4).encode (values.idxOf a) ++ rest) =
      .ok (values.idxOf a, rest) :=
    restores_word (Nat.lt_trans hidx hlength) rest
  have hvalue : values[values.idxOf a]? = some a := by
    rw [List.getElem?_eq_getElem hidx, List.getElem_idxOf]
  show ((word 4).decode _ >>= fun p => _) = _
  rw [oneOf, htag, ok_bind]
  simp only [hvalue]
  rfl

end Binary.Codec

/-! ## Metrics that fit -/

/-- The lengths of the parts of the name of a unit fit a word. -/
structure UnitName.Fits (u : UnitName) : Prop where
  name : TextFits u.name
  file : TextFits u.file

/-- The numbers and lengths of a unit with its hotness fit a word. -/
structure Hotness.Fits (h : Hotness) : Prop where
  unit : h.unit.Fits
  changes : h.changes < UInt64.size
  peers : h.peers < UInt64.size

/-- The number and the lengths of a coupling fit a word. -/
structure Coupling.Fits (c : Coupling) : Prop where
  first : c.first.Fits
  second : c.second.Fits
  changes : c.changes < UInt64.size

/-- The number and the lengths of a unit at risk fit a word. -/
structure Hotspot.Fits (h : Hotspot) : Prop where
  unit : h.unit.Fits
  changes : h.changes < UInt64.size

/-- The totals fit a word. -/
structure Totals.Fits (t : Totals) : Prop where
  units : t.units < UInt64.size
  changes : t.changes < UInt64.size
  couplings : t.couplings < UInt64.size
  hotUnits : t.hotUnits < UInt64.size

/-- The numbers and lengths of metrics fit a word. -/
structure Metrics.Fits (m : Metrics) : Prop where
  hotnessLength : m.hotness.length < UInt64.size
  hotness : ∀ h ∈ m.hotness, h.Fits
  couplingsLength : m.couplings.length < UInt64.size
  couplings : ∀ c ∈ m.couplings, c.Fits
  hotspotsLength : m.hotspots.length < UInt64.size
  hotspots : ∀ h ∈ m.hotspots, h.Fits
  totals : m.totals.Fits

section Decidable

instance (u : UnitName) : Decidable u.Fits :=
  decidable_of_iff (TextFits u.name ∧ TextFits u.file)
    ⟨fun ⟨hn, hf⟩ => ⟨hn, hf⟩, fun ⟨hn, hf⟩ => ⟨hn, hf⟩⟩

instance (h : Hotness) : Decidable h.Fits :=
  decidable_of_iff (h.unit.Fits ∧ h.changes < UInt64.size ∧ h.peers < UInt64.size)
    ⟨fun ⟨hu, hc, hp⟩ => ⟨hu, hc, hp⟩, fun ⟨hu, hc, hp⟩ => ⟨hu, hc, hp⟩⟩

instance (c : Coupling) : Decidable c.Fits :=
  decidable_of_iff (c.first.Fits ∧ c.second.Fits ∧ c.changes < UInt64.size)
    ⟨fun ⟨hf, hs, hc⟩ => ⟨hf, hs, hc⟩, fun ⟨hf, hs, hc⟩ => ⟨hf, hs, hc⟩⟩

instance (h : Hotspot) : Decidable h.Fits :=
  decidable_of_iff (h.unit.Fits ∧ h.changes < UInt64.size)
    ⟨fun ⟨hu, hc⟩ => ⟨hu, hc⟩, fun ⟨hu, hc⟩ => ⟨hu, hc⟩⟩

instance (t : Totals) : Decidable t.Fits :=
  decidable_of_iff (t.units < UInt64.size ∧ t.changes < UInt64.size ∧ t.couplings < UInt64.size ∧
      t.hotUnits < UInt64.size)
    ⟨fun ⟨hu, hc, hp, hh⟩ => ⟨hu, hc, hp, hh⟩, fun ⟨hu, hc, hp, hh⟩ => ⟨hu, hc, hp, hh⟩⟩

instance (m : Metrics) : Decidable m.Fits :=
  decidable_of_iff ((m.hotness.length < UInt64.size ∧ ∀ h ∈ m.hotness, h.Fits) ∧
      (m.couplings.length < UInt64.size ∧ ∀ c ∈ m.couplings, c.Fits) ∧
      (m.hotspots.length < UInt64.size ∧ ∀ h ∈ m.hotspots, h.Fits) ∧ m.totals.Fits)
    ⟨fun ⟨⟨hl, h⟩, ⟨cl, c⟩, ⟨sl, s⟩, t⟩ => ⟨hl, h, cl, c, sl, s, t⟩,
      fun ⟨hl, h, cl, c, sl, s, t⟩ => ⟨⟨hl, h⟩, ⟨cl, c⟩, ⟨sl, s⟩, t⟩⟩

end Decidable

theorem CodeUnit.Fits.report_restores {u : CodeUnit} (h : u.Fits) :
    CodeUnit.reportCodec.Restores u :=
  ((Codec.restores_string h.name).prod
    ((Codec.restores_string h.kind).prod (Codec.restores_string h.file))).imap rfl rfl

theorem UnitName.Fits.restores {u : UnitName} (h : u.Fits) : UnitName.codec.Restores u :=
  ((Codec.restores_string h.name).prod (Codec.restores_string h.file)).imap rfl rfl

theorem Hotness.Fits.restores {h : Hotness} (hf : h.Fits) : Hotness.codec.Restores h :=
  (hf.unit.report_restores.prod ((Codec.restores_nat hf.changes).prod
    ((Codec.restores_nat hf.peers).prod (Codec.restores_float h.score)))).imap rfl rfl

theorem Coupling.Fits.restores {c : Coupling} (h : c.Fits) : Coupling.codec.Restores c :=
  (h.first.restores.prod (h.second.restores.prod
    ((Codec.restores_nat h.changes).prod (Codec.restores_float c.strength)))).imap rfl rfl

theorem Hotspot.Fits.restores {h : Hotspot} (hf : h.Fits) : Hotspot.codec.Restores h := by
  have hrisk : h.risk ∈ [Risk.low, .medium, .high] := by cases h.risk <;> decide
  exact (hf.unit.report_restores.prod ((Codec.restores_nat hf.changes).prod
    (Codec.restores_oneOf hrisk (by decide)))).imap rfl rfl

theorem Totals.Fits.restores {t : Totals} (h : t.Fits) : Totals.codec.Restores t :=
  ((Codec.restores_nat h.units).prod ((Codec.restores_nat h.changes).prod
    ((Codec.restores_nat h.couplings).prod ((Codec.restores_float _).prod
      ((Codec.restores_float _).prod (Codec.restores_nat h.hotUnits)))))).imap rfl rfl

namespace Metrics

/-- **The binary form restores metrics that fit.** It is put together from the forms of its parts,
in the order of the fields. -/
theorem Fits.restores {m : Metrics} (h : m.Fits) : codec.Restores m :=
  ((Codec.restores_list h.hotnessLength fun x hx => (h.hotness x hx).restores).prod
    ((Codec.restores_list h.couplingsLength fun x hx => (h.couplings x hx).restores).prod
      ((Codec.restores_list h.hotspotsLength fun x hx => (h.hotspots x hx).restores).prod
        h.totals.restores))).imap rfl rfl

/-! ## The envelope -/

theorem hasMagic_toBinaryOf (version : Nat) (m : Metrics) (behind : Bytes) :
    hasMagic (m.toBinaryOf version ++ behind) = true := by
  rw [hasMagic, toBinaryOf, List.append_assoc, List.append_assoc, List.isPrefixOf_iff_prefix]
  exact List.prefix_append _ _

@[simp] theorem length_magic : magic.length = 4 := length_toUTF8 "SHOT"

/-- A report of another version differs in the second word only. -/
theorem toBinaryOf_eq_splice (version : Nat) (m : Metrics) :
    m.toBinaryOf version = m.toBinary.take 4 ++ littleEndian 4 version ++ m.toBinary.drop 8 := by
  have hfront : m.toBinary.take 4 = magic := by
    rw [toBinary, toBinaryOf, List.append_assoc]
    exact List.take_left' length_magic
  have hback : m.toBinary.drop 8 = codec.encode m := by
    rw [toBinary, toBinaryOf]
    exact List.drop_left' (by rw [List.length_append, length_magic]; rfl)
  rw [hfront, hback]
  rfl

/-- Behind the magic word and a version that can be read stands what the form reads. -/
theorem ofBinary_eq {version : Nat} (hversion : version < 256 ^ 4) (payload : Bytes) :
    ofBinary (magic ++ littleEndian 4 version ++ payload) =
      if FormatVersion.isCompatible version then
        match codec.decode payload with
        | .ok (m, _) => .ok m
        | .error e => .error (.codec e.message)
      else .error (.unsupportedVersion version) := by
  have hheader : (magic ++ littleEndian 4 version).length = 8 := by
    rw [List.length_append, length_magic, Binary.length_littleEndian]
  have hmagic : hasMagic (magic ++ littleEndian 4 version ++ payload) = true := by
    rw [hasMagic, List.append_assoc, List.isPrefixOf_iff_prefix]
    exact List.prefix_append _ _
  -- the eight bytes of the header are there, so only the version decides
  have hlong : ¬ (magic ++ littleEndian 4 version ++ payload).length < 8 := by
    rw [List.length_append, hheader]
    omega
  have hword : ((magic ++ littleEndian 4 version ++ payload).drop 4).take 4 =
      littleEndian 4 version := by
    rw [List.append_assoc, List.drop_left' length_magic]
    exact List.take_left' (Binary.length_littleEndian 4 version)
  rw [ofBinary, hmagic, hword, Binary.ofLittleEndian_littleEndian hversion, List.drop_left' hheader]
  simp only [hlong, decide_false, Bool.not_true, Bool.or_false, Bool.false_eq_true, if_false]
  cases FormatVersion.isCompatible version <;> rfl

/-- **A report is read back if its version can be read**, also with other bytes behind it. Which
versions can be read is decided before anything of the payload is looked at. -/
theorem ofBinary_whole {m : Metrics} (h : m.Fits) {version : Nat} (hversion : version < 256 ^ 4)
    (behind : Bytes) :
    ofBinary (m.toBinaryOf version ++ behind) =
      if FormatVersion.isCompatible version then
        .ok m else .error (.unsupportedVersion version) := by
  have hbytes : m.toBinaryOf version ++ behind =
      magic ++ littleEndian 4 version ++ (codec.encode m ++ behind) := List.append_assoc _ _ _
  rw [hbytes, ofBinary_eq hversion, h.restores behind]

/-- **A part of a report is refused**: by its length while the two words in front are not whole, and
by the form of the metrics behind them. -/
theorem ofBinary_of_part {m : Metrics} (h : m.Fits) {part : Bytes} (hpart : part <+: m.toBinary)
    (hne : part ≠ m.toBinary) :
    (part.length < 8 → ofBinary part = .error (.envelope "missing SHOT magic header")) ∧
      (8 ≤ part.length → ∃ detail, ofBinary part = .error (.codec detail)) := by
  refine ⟨fun hshort => by rw [ofBinary, decide_eq_true hshort, Bool.true_or, if_pos rfl],
    fun hlong => ?_⟩
  obtain ⟨off, hoff⟩ := hpart
  -- a part of at least eight bytes is the two words and a part of the metrics
  have hheader : (magic ++ littleEndian 4 FormatVersion.current).length = 8 := by
    rw [List.length_append, length_magic, Binary.length_littleEndian]
  obtain ⟨payload, hpayload⟩ : (magic ++ littleEndian 4 FormatVersion.current) <+: part :=
    List.prefix_of_prefix_length_le (List.prefix_append _ (codec.encode m)) ⟨off, hoff⟩ (by omega)
  subst hpayload
  have hencode : payload ++ off = codec.encode m := by
    rw [List.append_assoc] at hoff
    exact List.append_cancel_left hoff
  have hcut : payload ≠ codec.encode m := fun heq => hne (by rw [heq]; rfl)
  obtain ⟨e, he⟩ := Codec.Reads.error_of_part h.restores settled_codec ⟨off, hencode⟩ hcut
  exact ⟨e.message, by rw [ofBinary_eq (by decide), he]; rfl⟩

/-- **A binary report keeps the metrics and tells when it is cut off or of another kind.** With
other bytes behind it: it is taken for a binary report, the metrics are read back from it with every
bit, and shown again in any format as the metrics themselves are. Of its parts none is read. With
another version in it, it is read exactly if the major part of the version is the same. -/
theorem envelope_restores {m : Metrics} (h : m.Fits) :
    (∀ behind, hasMagic (m.toBinary ++ behind) = true ∧ ofBinary (m.toBinary ++ behind) = .ok m ∧
      Report.Saved.parse (m.toBinary ++ behind) = .ok (.metrics m) ∧
      ∀ format options,
        (Report.Saved.render format options <$> Report.Saved.parse (m.toBinary ++ behind)) =
        .ok (Report.render format options m)) ∧
    (∀ part, part <+: m.toBinary → part ≠ m.toBinary →
      (part.length < 8 → ofBinary part = .error (.envelope "missing SHOT magic header")) ∧
      (8 ≤ part.length → ∃ detail, ofBinary part = .error (.codec detail))) ∧
    ∀ version < 2 ^ 32, ∀ behind,
      ofBinary (m.toBinary.take 4 ++ littleEndian 4 version ++ m.toBinary.drop 8 ++ behind) =
        if version / 10000 = FormatVersion.current / 10000 then .ok m
        else .error (.unsupportedVersion version) := by
  refine ⟨fun behind => ?_, fun part => ofBinary_of_part h, fun version hversion behind => ?_⟩
  · have hmagic : hasMagic (m.toBinary ++ behind) = true := hasMagic_toBinaryOf _ m behind
    have hread : ofBinary (m.toBinary ++ behind) = .ok m := ofBinary_whole h (by decide) behind
    have hparse : Report.Saved.parse (m.toBinary ++ behind) = .ok (.metrics m) := by
      rw [Report.Saved.parse, Report.Saved.parseUsing, if_pos hmagic, hread]
      rfl
    exact ⟨hmagic, hread, hparse, fun format options => by rw [hparse]; rfl⟩
  · rw [← toBinaryOf_eq_splice, ofBinary_whole h hversion behind, FormatVersion.isCompatible]
    simp only [beq_iff_eq, FormatVersion.major]

namespace Sample

/-- Metrics with a score that is no number, a strength below zero and a name that is not ASCII. -/
def odd : Metrics where
  hotness := [⟨⟨"Function", "größe", "a.rs"⟩, 12, 1, .nan⟩]
  couplings := [⟨⟨"größe", "a.rs"⟩, ⟨"", "b.rs"⟩, 3, .infinity true⟩]
  hotspots := [⟨⟨"Function", "größe", "a.rs"⟩, 12, .medium⟩]
  totals := ⟨2, 15, 1, .ofRatio false 15 2, .infinity true, 1⟩

end Sample

/-- Metrics with an odd mix of texts and floats: bytes behind them are ignored, what is cut off is
refused by its length, and a version is read exactly if it is compatible. -/
theorem envelope_restores_sample :
    Sample.odd.Fits ∧ ofBinary (Sample.odd.toBinary ++ [0, 255]) = .ok Sample.odd ∧
    Report.Saved.parse (Sample.odd.toBinary ++ [0, 255]) = .ok (.metrics Sample.odd) ∧
    ofBinary (Sample.odd.toBinary.take 7) = .error (.envelope "missing SHOT magic header") ∧
    (∃ detail, ofBinary (Sample.odd.toBinary.take 200) = .error (.codec detail)) ∧
    ofBinary (Sample.odd.toBinary.take 4 ++
      littleEndian 4 10203 ++ Sample.odd.toBinary.drop 8 ++ []) =
      .ok Sample.odd ∧
    ofBinary (Sample.odd.toBinary.take 4 ++
      littleEndian 4 20000 ++ Sample.odd.toBinary.drop 8 ++ []) =
      .error (.unsupportedVersion 20000) := by
  have hfits : Sample.odd.Fits := by decide +kernel
  obtain ⟨hwhole, hpart, hversion⟩ := envelope_restores hfits
  obtain ⟨_, hread, hparse, _⟩ := hwhole [0, 255]
  have hseven : Sample.odd.toBinary.take 7 ≠ Sample.odd.toBinary := by decide +kernel
  have hcut : Sample.odd.toBinary.take 200 ≠ Sample.odd.toBinary := by decide +kernel
  refine ⟨hfits, hread, hparse, (hpart _ (List.take_prefix 7 _) hseven).1 (by decide +kernel),
    (hpart _ (List.take_prefix 200 _) hcut).2 (by decide +kernel), ?_, ?_⟩
  · exact (hversion 10203 (by decide) []).trans (if_pos (by decide))
  · exact (hversion 20000 (by decide) []).trans (if_neg (by decide))

end Metrics

end CoChange
