import BrilKit.Data.Arith
import BrilKit.Report.Csv
import BrilKit.Report.Mean
import BrilKit.Text.Numeral

/-!
# Normalised results

A table of benchmark results is divided by the results of the run called `baseline`. The new table
is written, and for each run the geometric mean, the least and the greatest ratio.
-/

namespace BrilKit

namespace Report

/-- A table on the one hand, remarks on the other. -/
structure Output where
  text : String
  remarks : String

namespace Normalize

def fieldOf (row : Csv.Row) (column : String) : Outcome (Option String) := row.fetch column

def result (row : Csv.Row) : Outcome Int := do
  match ← fieldOf row "result" with
  | some s => Numeral.read s
  | none => .error .kind

def baselines (rows : List Csv.Row) : Outcome (Table (Option String) Int) :=
  rows.foldlM (fun (t : Table (Option String) Int) row => do
    if (← fieldOf row "run") == some "baseline" then
      let benchmark ← fieldOf row "benchmark"
      return t.put benchmark (← result row)
    else return t) .empty

/-- The ratios of each run, and the lines of the table. -/
structure Progress where
  ratios : Table (Option String) (List Float) := .empty
  lines : List String := []

/-- Normalise a row; `surplus` tells whether it has more fields than there are columns. -/
def step (columns : List String) (base : Table (Option String) Int) (p : Progress)
    (item : Csv.Row × Bool) : Outcome Progress := do
  let (row, surplus) := item
  let n ← result row
  let benchmark ← fieldOf row "benchmark"
  let m ← Outcome.ofOption (benchmark.getD "None") (base.get? benchmark)
  let ratio ← Arith.ratio (.int n) (.int m)
  let run ← fieldOf row "run"
  Outcome.guard (!surplus) .surplusField
  let row := row.put "result" (some (Decimal.ofFloat ratio))
  let fields := columns.map fun c => ((row.get? c).getD none).getD ""
  return { ratios := p.ratios.alter run fun rs => rs.getD [] ++ [ratio]
           lines := p.lines ++ [Csv.record fields] }

def remarks (run : Option String) (ratios : List Float) : Outcome String := do
  let line (name : String) (x : Float) : String :=
    name ++ "(" ++ run.getD "None" ++ ") = " ++ Decimal.twoPlaces x ++ "\n"
  return line "geomean" (← Mean.geometric ratios) ++ line "min" (Mean.least ratios)
    ++ line "max" (Mean.greatest ratios)

end Normalize

def normalize (text : String) : Outcome Output := do
  match Csv.read text with
  | [] => .error .kind
  | columns :: records =>
    let records := records.filter fun fields => !fields.isEmpty
    let rows := records.map fun fields =>
      (Csv.row columns fields, decide (columns.length < fields.length))
    let base ← Normalize.baselines (rows.map Prod.fst)
    let p ← rows.foldlM (Normalize.step columns base) {}
    let remarks ← p.ratios.entries.mapM fun (run, ratios) => Normalize.remarks run ratios
    return { text := Csv.record columns ++ String.join p.lines, remarks := String.join remarks }

end Report

end BrilKit
