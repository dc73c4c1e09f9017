import CoChange.Json.Parser
import CoChange.Metrics.Binary
import CoChange.Report.Document
import CoChange.Yaml.Reader

/-!
# Saved reports

A report is written as text or in binary form. A saved report is read back from any of its forms; a
JSON or YAML document that does not hold metrics is kept as it is, and shown as a table.
-/

namespace CoChange.Report

open Binary (Bytes)

inductive Written where
  | text (content : String)
  | binary (content : Bytes)
  deriving DecidableEq, Repr

def Written.bytes : Written → Bytes
  | text s => s.toUTF8.toList
  | binary bs => bs

def render (format : OutputFormat) (o : TextOptions) (m : Metrics) : Written :=
  match format with
  | .text => .text (text o m)
  | .binary => .binary m.toBinary
  | .json | .yaml => .text (m.document.render format)

/-- A report that was read back. -/
inductive Saved where
  | metrics (m : Metrics)
  /-- Any other document; the members of its objects are sorted. -/
  | generic (v : Json.Value)

namespace Saved

/-- Reads a document, in JSON if possible and else in YAML. -/
def parseDocument (floats : Json.FloatReader) (bytes : Bytes) : Except EngineError Json.Value :=
  match String.fromUTF8? ⟨bytes.toArray⟩ with
  | none => .error (.codec "invalid UTF-8")
  | some s =>
    match Json.parseUsing floats Json.maxDepth s with
    | .ok v => .ok v.normalize
    | .error _ =>
      match Yaml.parse s with
      | .ok v => .ok v.normalize
      | .error e => .error (.codec e.message)

/-- Reads a report, with the given rounding of the numbers in JSON. -/
def parseUsing (floats : Json.FloatReader) (bytes : Bytes) : Except EngineError Saved :=
  if Metrics.hasMagic bytes then metrics <$> Metrics.ofBinary bytes
  else do
    let v ← parseDocument floats bytes
    match Metrics.decoder v with
    | .ok m => return metrics m
    | .error _ => return generic v

def parse (bytes : Bytes) : Except EngineError Saved := parseUsing .stepwise bytes

def render (format : OutputFormat) (o : TextOptions) : Saved → Written
  | metrics m => Report.render format o m
  | generic v => .text (Report.generic o.colours v)

end Saved

end CoChange.Report
