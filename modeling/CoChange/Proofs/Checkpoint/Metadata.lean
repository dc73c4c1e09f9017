import CoChange.Checkpoint.Metadata
import CoChange.Proofs.Json
import CoChange.Proofs.Timestamp

/-!
# Descriptions of checkpoints are read back

A description whose numbers fit their words, and that was made at a point in time that has a text
(`CheckpointMetadata.Fits`), is read back from its text: **`CheckpointMetadata.parse_toJson`** and
**`CheckpointMetadata.decoder_toJson`**.
-/

namespace CoChange

open Json (Value Decoder FieldReader FieldSource)

namespace Json.FieldReader

variable {name : String} {members : List (String × Value)} {v : Value}

/-- A reader goes on with what was read. -/
theorem run_bind_of_ok {α β : Type} {x : FieldReader α} {f : α → FieldReader β} {a : α}
    {source source' : FieldSource} (h : x source = .ok (a, source')) :
    StateT.run (x >>= f) source = StateT.run (f a) source' := by
  show (x source >>= fun p => f p.1 p.2) = _
  rw [h]
  rfl

/-- A field that is there once is taken. -/
theorem take_named (h : members.filter (·.1 == name) = [(name, v)]) :
    take name (.named members) = .ok (some v, .named members) := by
  unfold take
  simp only [bind, StateT.bind, get, getThe, MonadStateOf.get, StateT.get, pure, Except.pure,
    Except.bind, h]
  rfl

/-- A required member is the one value under its name, decoded. -/
theorem required_named {α : Type} {decode : Decoder α} {a : α}
    (h : members.filter (·.1 == name) = [(name, v)]) (hv : decode v = .ok a) :
    required name decode (.named members) = .ok (a, .named members) := by
  unfold required
  simp only [bind, StateT.bind, take_named h, Except.bind]
  show StateT.lift (decode v) (FieldSource.named members) = _
  rw [hv]
  rfl

/-- An optional member that is there is decoded like a required one. -/
theorem optional_named {α : Type} {decode : Decoder α} {o : Option α}
    (h : members.filter (·.1 == name) = [(name, v)]) (hv : Decoder.optional decode v = .ok o) :
    optional name decode (.named members) = .ok (o, .named members) := by
  unfold optional
  simp only [bind, StateT.bind, take_named h, Except.bind]
  show StateT.lift (Decoder.optional decode v) (FieldSource.named members) = _
  rw [hv]
  rfl

end Json.FieldReader

theorem Timestamp.decoder_render {t : Timestamp} (h : t.Valid) :
    Timestamp.decoder (.string t.render) = .ok t := by
  rw [Timestamp.decoder, Timestamp.parse?_render h]

theorem Json.Decoder.natBelow_nat {width n : Nat} (h : n < 2 ^ width) :
    Decoder.natBelow width (.nat n) = .ok n := by
  show (if n < 2 ^ width then Except.ok n else _) = _
  rw [if_pos h]

theorem Json.Decoder.optional_string (o : Option String) :
    Decoder.optional Decoder.string (.ofOption .string o) = .ok o := by
  cases o <;> rfl

namespace CheckpointMetadata

/-- The numbers of a description fit their words, and its point in time has a text. -/
structure Fits (m : CheckpointMetadata) : Prop where
  version : m.version < UInt32.size
  created : m.created.Valid
  processed : m.processed < UInt64.size

/-- **A description is read back from its document.** Each member has its name once, so it is found
wherever it stands. -/
theorem decoder_toJson {m : CheckpointMetadata} (h : m.Fits) : decoder m.toJson = .ok m := by
  have hversion : Decoder.natBelow 32 (.nat m.version) = .ok m.version :=
    Decoder.natBelow_nat h.version
  have hrepository : Decoder.string (.string m.repository) = .ok m.repository := rfl
  have hprocessed : Decoder.nat (.nat m.processed) = .ok m.processed :=
    Decoder.natBelow_nat h.processed
  rw [decoder, toJson, FieldReader.record, FieldReader.run_bind_of_ok
    (FieldReader.required_named rfl hversion), FieldReader.run_bind_of_ok
    (FieldReader.required_named rfl hrepository), FieldReader.run_bind_of_ok
    (FieldReader.required_named rfl (Timestamp.decoder_render h.created)),
      FieldReader.run_bind_of_ok
    (FieldReader.required_named rfl hprocessed), FieldReader.run_bind_of_ok
    (FieldReader.optional_named rfl (Decoder.optional_string m.last))]
  rfl

/-- The document of metadata has no floats in it, so any reader of numbers reads it back. -/
theorem readable_toJson {m : CheckpointMetadata} (h : m.Fits) (floats : Json.FloatReader) :
    m.toJson.Readable floats := by
  have hversion : m.version < UInt64.size := Nat.lt_trans h.version (by decide)
  have hlast : (Value.ofOption .string m.last).Readable floats := by
    cases m.last <;> trivial
  exact ⟨Json.Number.readable_nat hversion, trivial, trivial, Json.Number.readable_nat h.processed,
    hlast, trivial⟩

theorem depth_toJson (m : CheckpointMetadata) : m.toJson.depth ≤ Json.maxDepth := by
  cases h : m.last <;> simp [toJson, Value.depth, Value.depthMembers, Value.nat, Value.ofOption, h,
    Json.maxDepth]

/-- **A description is read back from its text.** The text is that of a document which is not deep
and has no floats. -/
theorem parse_toJson {m : CheckpointMetadata} (h : m.Fits) :
    Json.parse m.toJson.pretty = .ok m.toJson :=
  Json.parse_pretty (readable_toJson h .stepwise) (depth_toJson m)

end CheckpointMetadata

end CoChange
