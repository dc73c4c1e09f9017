import CoChange.Binary64.Text
import CoChange.Metrics.Basic
import CoChange.Report.Style
import CoChange.Report.Table

/-!
# Reports for a reader

Metrics as a summary and up to three sections: the hottest units, the units at risk and the
strongest couplings. A section shows a limited number of rows and says how many there are besides.
-/

namespace CoChange.Report

/-- What a reader asks for. -/
structure TextOptions where
  /-- The number of rows of a section. -/
  limit : Nat
  colours : Bool
  deriving DecidableEq, Repr, Inhabited

def heading (o : TextOptions) (text : String) : String := paint o.colours .heading text ++ "\n"

/-- A share as a percentage without places. -/
def percent (x : Binary64) : String := (x * .ofNat 100).renderFixed 0 ++ "%"

def riskLabel (o : TextOptions) (r : Risk) : String :=
  match r with
  | .high => paint o.colours .alarm r.label
  | .medium => paint o.colours .warning r.label
  | .low => r.label

/-- The name of a unit in a list of couplings. -/
def UnitName.display (u : UnitName) : String := u.name ++ " (" ++ u.file ++ ")"

def summaryRows (o : TextOptions) (t : Totals) : List Row :=
  [["Total Nodes", toString t.units],
    ["Total Changes", toString t.changes],
    ["Avg Changes/Node", t.changesPerUnit.renderFixed 1],
    ["Total Couplings", toString t.couplings],
    ["Avg Coupling Strength", percent t.averageStrength],
    ["Hot Nodes",
      if 0 < t.hotUnits then paint o.colours .notable (toString t.hotUnits)
      else toString t.hotUnits]]

def hotnessRow (h : Hotness) : Row :=
  [h.unit.name, h.unit.file, toString h.changes, h.score.renderFixed 2, toString h.peers]

def hotspotRow (o : TextOptions) (h : Hotspot) : Row :=
  [h.unit.name, h.unit.file, toString h.changes, riskLabel o h.risk]

def couplingRow (c : Coupling) : Row :=
  [UnitName.display c.first, UnitName.display c.second, toString c.changes, percent c.strength]

/-- A section, if there is anything to show. -/
def section_ (o : TextOptions) (title : String) (headers : Row) (rows : List Row) : String :=
  if rows.isEmpty then ""
  else
    let more := if o.limit < rows.length then
        paint o.colours .faint ("  ... and " ++ toString (rows.length - o.limit) ++ " more") ++ "\n"
      else ""
    "\n" ++ heading o title ++ table headers (rows.take o.limit) ++ more

/-- Writes metrics for a reader. -/
def text (o : TextOptions) (m : Metrics) : String :=
  heading o ("Shotness Analysis (" ++ toString m.totals.units ++ " nodes)") ++ "\n"
    ++ heading o "Summary" ++ table [] (summaryRows o m.totals)
    ++ section_ o "Hottest Functions" ["Name", "File", "Changes", "Score", "Coupled"]
        (m.hotness.map hotnessRow)
    ++ section_ o "Risk Assessment" ["Name", "File", "Changes", "Risk"]
        (m.hotspots.map (hotspotRow o))
    ++ section_ o "Strongest Couplings" ["Unit", "Peer", "Co-changes", "Strength"]
        (m.couplings.map couplingRow)

end CoChange.Report
