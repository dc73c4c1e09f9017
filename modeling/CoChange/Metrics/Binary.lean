import CoChange.Binary.Codec
import CoChange.EngineError
import CoChange.FormatVersion
import CoChange.Metrics.Basic

/-!
# Metrics in binary form

A binary report is the word `SHOT`, the version of the format, and the metrics. Bytes behind them
are ignored. A report of another major version is refused.
-/

namespace CoChange

open Binary (Codec Bytes)

/-- The binary form of a unit as reports list it: name, kind, file. -/
def CodeUnit.reportCodec : Codec CodeUnit :=
  (Codec.string.prod (Codec.string.prod Codec.string)).imap
    (fun (name, kind, file) => ⟨kind, name, file⟩) (fun u => (u.name, u.kind, u.file))

/-- The binary form of a unit with its hotness. -/
def Hotness.codec : Codec Hotness :=
  (CodeUnit.reportCodec.prod (Codec.nat.prod (Codec.nat.prod Codec.float))).imap
    (fun (unit, changes, peers, score) => ⟨unit, changes, peers, score⟩)
    (fun h => (h.unit, h.changes, h.peers, h.score))

/-- The binary form of the name of a unit. -/
def UnitName.codec : Codec UnitName :=
  (Codec.string.prod Codec.string).imap
    (fun (name, file) => ⟨name, file⟩) (fun u => (u.name, u.file))

def Coupling.codec : Codec Coupling :=
  (UnitName.codec.prod (UnitName.codec.prod (Codec.nat.prod Codec.float))).imap
    (fun (first, second, changes, strength) => ⟨first, second, changes, strength⟩)
    (fun c => (c.first, c.second, c.changes, c.strength))

def Hotspot.codec : Codec Hotspot :=
  (CodeUnit.reportCodec.prod (Codec.nat.prod (Codec.oneOf [Risk.low, .medium, .high]))).imap
    (fun (unit, changes, risk) => ⟨unit, changes, risk⟩) (fun h => (h.unit, h.changes, h.risk))

def Totals.codec : Codec Totals :=
  (Codec.nat.prod (Codec.nat.prod (Codec.nat.prod (Codec.float.prod
    (Codec.float.prod Codec.nat))))).imap
    (fun (units, changes, couplings, average, strength, hot) =>
      ⟨units, changes, couplings, average, strength, hot⟩)
    (fun t =>
      (t.units, t.changes, t.couplings, t.changesPerUnit, t.averageStrength, t.hotUnits))

def Metrics.codec : Codec Metrics :=
  ((Codec.list Hotness.codec).prod ((Codec.list Coupling.codec).prod
    ((Codec.list Hotspot.codec).prod Totals.codec))).imap
    (fun (hotness, couplings, hotspots, totals) => ⟨hotness, couplings, hotspots, totals⟩)
    (fun m => (m.hotness, m.couplings, m.hotspots, m.totals))

namespace Metrics

/-- The bytes that a binary report begins with. -/
def magic : Bytes := "SHOT".toUTF8.toList

/-- Whether bytes begin as a binary report does. -/
def hasMagic (bytes : Bytes) : Bool := magic.isPrefixOf bytes

/-- Writes a report of the given version. -/
def toBinaryOf (version : Nat) (m : Metrics) : Bytes :=
  magic ++ (Codec.word 4).encode version ++ codec.encode m

def toBinary (m : Metrics) : Bytes := m.toBinaryOf FormatVersion.current

def ofBinary (bytes : Bytes) : Except EngineError Metrics :=
  if bytes.length < 8 || !hasMagic bytes then .error (.envelope "missing SHOT magic header")
  else
    let version := Binary.ofLittleEndian ((bytes.drop 4).take 4)
    if !FormatVersion.isCompatible version then .error (.unsupportedVersion version)
    else
      match codec.decode (bytes.drop 8) with
      | .ok (m, _) => .ok m
      | .error e => .error (.codec e.message)

end Metrics

end CoChange
