import CoChange.Engine
import CoChange.RawReport.Json

/-!
# States of an engine as JSON
-/

namespace CoChange

open Json (Value Decoder FieldReader)

def Entry.decoder : Decoder Entry := FieldReader.record do
  return {
    unit := ← FieldReader.required "summary" CodeUnit.decoder
    count := ← FieldReader.required "count" Decoder.nat
    couples := ← FieldReader.required "couples" (Decoder.map Decoder.nat) }

def Entry.toJson (e : Entry) : Value := .object
  [("summary", e.unit.toJson), ("count", .nat e.count), ("couples", .ofMap .nat e.couples)]

def EngineState.decoder : Decoder EngineState := FieldReader.record do
  return {
    entries := ← FieldReader.required "nodes" (Decoder.map Entry.decoder)
    merges := ← FieldReader.required "merges" (Decoder.list Decoder.string)
    processed := ← FieldReader.required "commits_processed" Decoder.nat
    last := ← FieldReader.optional "last_commit" Decoder.string }

def EngineState.toJson (s : EngineState) : Value := .object
  [("nodes", .ofMap Entry.toJson s.entries), ("merges", .array (s.merges.map .string)),
    ("commits_processed", .nat s.processed), ("last_commit", .ofOption .string s.last)]

end CoChange
