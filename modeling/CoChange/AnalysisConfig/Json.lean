import CoChange.AnalysisConfig
import CoChange.Json.Decode

/-!
# Settings of an analysis as JSON
-/

namespace CoChange

open Json (Value Decoder FieldReader)

def AnalysisConfig.decoder : Decoder AnalysisConfig := FieldReader.record do
  return {
    structuralQuery := ← FieldReader.required "dsl_struct" Decoder.string
    nameQuery := ← FieldReader.required "dsl_name" Decoder.string
    maxCouplingUnits := ← FieldReader.required "max_coupling_nodes" Decoder.nat
    shards := ← FieldReader.required "shards" Decoder.nat
    chunkSize := ← FieldReader.required "chunk_size" Decoder.nat
    maxMemoryBytes := ← FieldReader.required "max_memory_bytes" Decoder.nat
    checkpointDir := ← FieldReader.optional "checkpoint_dir" Decoder.string }

def AnalysisConfig.toJson (c : AnalysisConfig) : Value := .object
  [("dsl_struct", .string c.structuralQuery), ("dsl_name", .string c.nameQuery),
    ("max_coupling_nodes", .nat c.maxCouplingUnits), ("shards", .nat c.shards),
    ("chunk_size", .nat c.chunkSize), ("max_memory_bytes", .nat c.maxMemoryBytes),
    ("checkpoint_dir", .ofOption .string c.checkpointDir)]

end CoChange
