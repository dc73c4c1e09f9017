import CoChange.Json.Decode
import CoChange.Metrics.Basic

/-!
# Metrics as JSON
-/

namespace CoChange

open Json (Value Decoder FieldReader)

def Hotness.decoder : Decoder Hotness := FieldReader.record do
  let name ← FieldReader.required "name" Decoder.string
  let kind ← FieldReader.required "type" Decoder.string
  let file ← FieldReader.required "file" Decoder.string
  return {
    unit := ⟨kind, name, file⟩
    changes := ← FieldReader.required "change_count" Decoder.nat
    peers := ← FieldReader.required "coupled_nodes" Decoder.nat
    score := ← FieldReader.required "hotness_score" Decoder.float }

def Hotness.toJson (h : Hotness) : Value := .object
  [("name", .string h.unit.name), ("type", .string h.unit.kind), ("file", .string h.unit.file),
    ("change_count", .nat h.changes), ("coupled_nodes", .nat h.peers),
    ("hotness_score", .number (.float h.score))]

def Coupling.decoder : Decoder Coupling := FieldReader.record do
  let firstName ← FieldReader.required "node1_name" Decoder.string
  let firstFile ← FieldReader.required "node1_file" Decoder.string
  let secondName ← FieldReader.required "node2_name" Decoder.string
  let secondFile ← FieldReader.required "node2_file" Decoder.string
  return {
    first := ⟨firstName, firstFile⟩
    second := ⟨secondName, secondFile⟩
    changes := ← FieldReader.required "co_changes" Decoder.nat
    strength := ← FieldReader.required "coupling_strength" Decoder.float }

def Coupling.toJson (c : Coupling) : Value := .object
  [("node1_name", .string c.first.name), ("node1_file", .string c.first.file),
    ("node2_name", .string c.second.name), ("node2_file", .string c.second.file),
    ("co_changes", .nat c.changes), ("coupling_strength", .number (.float c.strength))]

def Hotspot.decoder : Decoder Hotspot := FieldReader.record do
  let name ← FieldReader.required "name" Decoder.string
  let kind ← FieldReader.required "type" Decoder.string
  let file ← FieldReader.required "file" Decoder.string
  return {
    unit := ⟨kind, name, file⟩
    changes := ← FieldReader.required "change_count" Decoder.nat
    risk := ← FieldReader.required "risk_level" <|
      Decoder.oneOf ([Risk.low, .medium, .high].map fun r => (r.label, r)) }

def Hotspot.toJson (h : Hotspot) : Value := .object
  [("name", .string h.unit.name), ("type", .string h.unit.kind), ("file", .string h.unit.file),
    ("change_count", .nat h.changes), ("risk_level", .string h.risk.label)]

def Totals.decoder : Decoder Totals := FieldReader.record do
  return {
    units := ← FieldReader.required "total_nodes" Decoder.nat
    changes := ← FieldReader.required "total_changes" Decoder.nat
    couplings := ← FieldReader.required "total_couplings" Decoder.nat
    changesPerUnit := ← FieldReader.required "avg_changes_per_node" Decoder.float
    averageStrength := ← FieldReader.required "avg_coupling_strength" Decoder.float
    hotUnits := ← FieldReader.required "hot_nodes" Decoder.nat }

def Totals.toJson (t : Totals) : Value := .object
  [("total_nodes", .nat t.units), ("total_changes", .nat t.changes),
    ("total_couplings", .nat t.couplings),
    ("avg_changes_per_node", .number (.float t.changesPerUnit)),
    ("avg_coupling_strength", .number (.float t.averageStrength)), ("hot_nodes", .nat t.hotUnits)]

def Metrics.decoder : Decoder Metrics := FieldReader.record do
  return {
    hotness := ← FieldReader.required "node_hotness" (Decoder.list Hotness.decoder)
    couplings := ← FieldReader.required "node_coupling" (Decoder.list Coupling.decoder)
    hotspots := ← FieldReader.required "hotspot_nodes" (Decoder.list Hotspot.decoder)
    totals := ← FieldReader.required "aggregate" Totals.decoder }

def Metrics.toJson (m : Metrics) : Value := .object
  [("node_hotness", .array (m.hotness.map Hotness.toJson)),
    ("node_coupling", .array (m.couplings.map Coupling.toJson)),
    ("hotspot_nodes", .array (m.hotspots.map Hotspot.toJson)),
    ("aggregate", m.totals.toJson)]

end CoChange
