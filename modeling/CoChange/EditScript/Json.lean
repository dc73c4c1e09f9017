import CoChange.EditScript.Basic
import CoChange.Json.Decode

/-!
# Edit scripts as JSON
-/

namespace CoChange

open Json (Value Decoder FieldReader)

def EditKind.word : EditKind → String
  | equal => "Equal"
  | insert => "Insert"
  | delete => "Delete"

def Edit.decoder : Decoder Edit := FieldReader.record do
  return {
    kind := ← FieldReader.required "kind" <|
      Decoder.oneOf ([EditKind.equal, .insert, .delete].map fun k => (k.word, k))
    size := ← FieldReader.required "size" Decoder.nat }

def Edit.toJson (e : Edit) : Value := .object [("kind", .string e.kind.word), ("size", .nat e.size)]

def FileDiff.decoder : Decoder FileDiff := FieldReader.record do
  return {
    oldLines := ← FieldReader.required "old_lines" Decoder.nat
    newLines := ← FieldReader.required "new_lines" Decoder.nat
    edits := ← FieldReader.required "edits" (Decoder.list Edit.decoder) }

def FileDiff.toJson (d : FileDiff) : Value := .object
  [("old_lines", .nat d.oldLines), ("new_lines", .nat d.newLines),
    ("edits", .array (d.edits.map Edit.toJson))]

end CoChange
