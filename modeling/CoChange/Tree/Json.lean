import CoChange.Json.Decode
import CoChange.Tree.Basic

/-!
# Syntax trees as JSON
-/

namespace CoChange

open Json (Value Decoder FieldReader)

def Span.decoder : Decoder Span := FieldReader.record do
  return {
    startLine := ← FieldReader.required "start_line" Decoder.nat
    startColumn := ← FieldReader.required "start_col" Decoder.nat
    startOffset := ← FieldReader.required "start_offset" Decoder.nat
    endLine := ← FieldReader.required "end_line" Decoder.nat
    endColumn := ← FieldReader.required "end_col" Decoder.nat
    endOffset := ← FieldReader.required "end_offset" Decoder.nat }

def Span.toJson (s : Span) : Value := .object
  [("start_line", .nat s.startLine), ("start_col", .nat s.startColumn),
    ("start_offset", .nat s.startOffset), ("end_line", .nat s.endLine),
    ("end_col", .nat s.endColumn), ("end_offset", .nat s.endOffset)]

namespace Node

/-- Reads a tree of at most the given depth. -/
def decodeWithin : Nat → Decoder Node
  | 0 => fun _ => .error (.wrongType "a record")
  | depth + 1 => FieldReader.record do
    return {
      id := ← FieldReader.required "id" Decoder.nat
      kind := ← FieldReader.required "type" Decoder.string
      token := ← FieldReader.withDefault "token" "" Decoder.string
      roles := ← FieldReader.withDefault "roles" [] (Decoder.list Decoder.string)
      props := ← FieldReader.withDefault "props" ∅ (Decoder.map Decoder.string)
      span := ← FieldReader.withDefault "pos" none (Decoder.optional Span.decoder)
      children := ← FieldReader.withDefault "children" [] (Decoder.list (decodeWithin depth)) }

def decoder : Decoder Node := fun v => decodeWithin v.depth v

mutual

def toJson : Node → Value
  | ⟨id, kind, token, roles, props, span, children⟩ => .object
    [("id", .nat id), ("type", .string kind), ("token", .string token),
      ("roles", .array (roles.map .string)),
      ("props", .object (props.toList.map fun p => (p.1, .string p.2))),
      ("pos", .ofOption Span.toJson span), ("children", .array (toJsonAll children))]

def toJsonAll : List Node → List Value
  | [] => []
  | n :: rest => n.toJson :: toJsonAll rest

end

end Node

end CoChange
