import CoChange.Json.Printer
import CoChange.Metrics.Json
import CoChange.OutputFormat
import CoChange.RawReport.Json
import CoChange.Report.Generic
import CoChange.Yaml.Printer

/-!
# Documents in the formats of a text

A document is written as JSON, as YAML, or for a reader as a table of its leaves.
-/

namespace CoChange

/-- A document, as JSON has it and as YAML has it. -/
structure Document where
  json : Json.Value
  yaml : Yaml.Value
  deriving Inhabited

namespace Document

/-- A document that both formats have in the same way. -/
def ofJson (v : Json.Value) : Document := ⟨v, .ofJson v⟩

/-- Writes a document. What is no format of a text gives the table, too. -/
def render (format : OutputFormat) (d : Document) : String :=
  match format with
  | .json => d.json.pretty ++ "\n"
  | .yaml => d.yaml.render
  | .text | .binary => Report.generic false d.json.normalize

end Document

/-- Metrics as a document. -/
def Metrics.document (m : Metrics) : Document := .ofJson m.toJson

/-- A row of counters as YAML has it: its positions stay numbers. -/
def CountRow.toYaml (row : CountRow) : Yaml.Value :=
  .mapping (row.toList.map fun e => (.int e.1, .number (.int e.2)))

/-- A raw report as YAML has it. -/
def RawReport.toYaml (r : RawReport) : Yaml.Value := .mapping
  [(.string "nodes", .ofJson (.array (r.units.map CodeUnit.toJson))),
    (.string "counters", .sequence (r.counters.map CountRow.toYaml)),
    (.string "commit_stats", .ofJson (.ofMap CommitStats.toJson r.commitStats))]

/-- A raw report as a document. -/
def RawReport.document (r : RawReport) : Document := ⟨r.toJson, r.toYaml⟩

end CoChange
