import Cartridge.Decimal.Fixed
import Cartridge.Text.Json
import Cartridge.Text.Listing

/-!
# Coverage

How much of each source file the benchmarks reach, as a table with the least covered file first.
-/

namespace Cartridge.Bench

open Text (Json)

def padRight (width : Nat) (s : String) : String :=
  s ++ String.ofList (List.replicate (width - s.length) ' ')

def fixed (width places : Nat) (x : Float) : String := Fixed.padLeft width (Fixed.text places x)

def count (j : Json) (name : String) : Json := (j.get? name).getD (.int 0)

def part (j : Json) (name : String) : Json := (j.get? name).getD .null

structure FileCoverage where
  name : String
  statements : Json
  missing : Json
  percent : Float
  lines : List Json

namespace FileCoverage

def nameLimit : Nat := 60

def lineLimit : Nat := 12

def relative (name : String) : String :=
  let short := if name.startsWith "/repo/" then (name.drop 6).toString else name
  (short.take nameLimit).toString

def ofJson (name : String) (j : Json) : FileCoverage :=
  let summary := part j "summary"
  { name := relative name
    statements := count summary "num_statements"
    missing := count summary "missing_lines"
    percent := (count summary "percent_covered").toReal
    lines := (part j "missing_lines").elements }

/-- Whether a file comes before another: by its percentage, then by what is missing. -/
def before (a b : FileCoverage) : Bool :=
  a.percent < b.percent || (a.percent == b.percent && a.missing.toReal ≥ b.missing.toReal)

def lineText (c : FileCoverage) : String :=
  String.intercalate "," ((c.lines.take lineLimit).map Json.shown) ++
    if lineLimit < c.lines.length then "…" else ""

def row (width : Nat) (c : FileCoverage) : String :=
  padRight width c.name ++ "  " ++ Fixed.padLeft 5 c.statements.shown ++ "  " ++
    Fixed.padLeft 4 c.missing.shown ++ "  " ++ fixed 4 0 c.percent ++ "%  " ++ c.lineText

end FileCoverage

structure Coverage where
  files : List FileCoverage
  percent : Float
  covered : Json
  statements : Json
  failures : Nat

namespace Coverage

def ofJson (j : Json) : Coverage :=
  let totals := part j "totals"
  { files := (part j "files").members.map fun m => .ofJson m.1 m.2
    percent := (count totals "percent_covered").toReal
    covered := count totals "covered_lines"
    statements := count totals "num_statements"
    failures := (part (part j "meta") "_pti_bench_errors").members.length }

def width (c : Coverage) : Nat :=
  (c.files.map fun f => f.name.length).foldl max "Name".length

def table (c : Coverage) : List String :=
  let w := c.width
  let rule := String.ofList (List.replicate (w + 42) '-')
  let rows := (c.files.mergeSort FileCoverage.before).map (FileCoverage.row w)
  let total := padRight w "TOTAL" ++ "  " ++ Fixed.padLeft 5 c.statements.shown ++ "  " ++
    Fixed.padLeft 4 (c.statements.minus c.covered).shown ++ "  " ++ fixed 4 0 c.percent ++ "%"
  (padRight w "Name" ++ "  Stmts  Miss  Cover  Missing") :: rule :: rows ++ [rule, total]

end Coverage

end Cartridge.Bench
