import CoChange.Commit
import CoChange.EditScript.Json
import CoChange.Tree.Json

/-!
# Commits as JSON
-/

namespace CoChange

open Json (Value Decoder FieldReader)

def Change.decoder : Decoder Change := FieldReader.record do
  return {
    source := ← FieldReader.required "from" Decoder.string
    target := ← FieldReader.required "to" Decoder.string
    before := ← FieldReader.optional "before" Node.decoder
    after := ← FieldReader.optional "after" Node.decoder
    diff := ← FieldReader.optional "diff" FileDiff.decoder }

def Change.toJson (c : Change) : Value := .object
  [("from", .string c.source), ("to", .string c.target), ("before", .ofOption Node.toJson c.before),
    ("after", .ofOption Node.toJson c.after), ("diff", .ofOption FileDiff.toJson c.diff)]

def Commit.decoder : Decoder Commit := FieldReader.record do
  return {
    hash := ← FieldReader.required "hash" Decoder.string
    parentCount := ← FieldReader.required "parent_count" Decoder.nat
    changes := ← FieldReader.required "changes" (Decoder.list Change.decoder) }

def Commit.toJson (c : Commit) : Value := .object
  [("hash", .string c.hash), ("parent_count", .nat c.parentCount),
    ("changes", .array (c.changes.map Change.toJson))]

end CoChange
