import CoChange.Binary.Codec
import CoChange.Engine
import CoChange.EngineError

/-!
# States of an engine in binary form
-/

namespace CoChange

open Binary (Codec Bytes)

/-- The binary form of a unit as registries list it: kind, name, file. -/
def CodeUnit.codec : Codec CodeUnit :=
  (Codec.string.prod (Codec.string.prod Codec.string)).imap
    (fun (kind, name, file) => ⟨kind, name, file⟩) (fun u => (u.kind, u.name, u.file))

def Entry.codec : Codec Entry :=
  (CodeUnit.codec.prod (Codec.nat.prod (Codec.map Codec.nat))).imap
    (fun (unit, count, couples) => ⟨unit, count, couples⟩) (fun e => (e.unit, e.count, e.couples))

namespace EngineState

def codec : Codec EngineState :=
  ((Codec.map Entry.codec).prod ((Codec.list Codec.string).prod
    (Codec.nat.prod (Codec.option Codec.string)))).imap
    (fun (entries, merges, processed, last) => ⟨entries, merges, processed, last⟩)
    (fun s => (s.entries, s.merges, s.processed, s.last))

def toBinary (s : EngineState) : Bytes := codec.encode s

def ofBinary (bytes : Bytes) : Except EngineError EngineState :=
  match codec.decode bytes with
  | .ok (s, _) => .ok s
  | .error e => .error (.codec e.message)

end EngineState

end CoChange
