import CoChange.Json.Decode
import CoChange.RawReport

/-!
# Units and raw reports as JSON
-/

namespace CoChange

open Json (Value Decoder FieldReader)

def CodeUnit.decoder : Decoder CodeUnit := FieldReader.record do
  return {
    kind := ← FieldReader.required "type" Decoder.string
    name := ← FieldReader.required "name" Decoder.string
    file := ← FieldReader.required "file" Decoder.string }

def CodeUnit.toJson (u : CodeUnit) : Value := .object
  [("type", .string u.kind), ("name", .string u.name), ("file", .string u.file)]

def CommitStats.decoder : Decoder CommitStats := FieldReader.record do
  return {
    unitsTouched := ← FieldReader.required "nodes_touched" Decoder.nat
    couplingPairs := ← FieldReader.required "coupling_pairs" Decoder.nat }

def CommitStats.toJson (s : CommitStats) : Value := .object
  [("nodes_touched", .nat s.unitsTouched), ("coupling_pairs", .nat s.couplingPairs)]

/-- Writes a map with the values in the form that `f` gives them. -/
def Json.Value.ofMap (f : α → Value) (m : SortedMap String α) : Value :=
  .object (m.toList.map fun e => (e.1, f e.2))

/-- Writes a row; its positions become decimal names. -/
def CountRow.toJson (row : CountRow) : Value :=
  .object (row.toList.map fun e => (toString e.1, .nat e.2))

def RawReport.decoder : Decoder RawReport := FieldReader.record do
  return {
    units := ← FieldReader.required "nodes" (Decoder.list CodeUnit.decoder)
    counters := ← FieldReader.required "counters" (Decoder.list (Decoder.natMap Decoder.nat))
    commitStats := ← FieldReader.withDefault "commit_stats" ∅ (Decoder.map CommitStats.decoder) }

def RawReport.toJson (r : RawReport) : Value := .object
  [("nodes", .array (r.units.map CodeUnit.toJson)),
    ("counters", .array (r.counters.map CountRow.toJson)),
    ("commit_stats", .ofMap CommitStats.toJson r.commitStats)]

end CoChange
