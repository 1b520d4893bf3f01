import Cartridge.Bench.Coverage
import Cartridge.Text.Quoted

/-!
# Time shares

The share of a benchmark's time that is spent in the code under test.  A share below the limit is
marked; a negative one stands for a benchmark that failed.
-/

namespace Cartridge.Bench

open Text (Json)

/-- The time share of one benchmark, and what else took its time. -/
structure Share where
  name : String
  percent : Float
  elsewhere : List (Float × String) := []

namespace Share

def limit : Float := 45

def isFailure (s : Share) : Bool := s.percent < 0

def isBelow (s : Share) : Bool := !s.isFailure && s.percent < limit

def elsewhereText (s : Share) : String :=
  if s.isBelow && !s.elsewhere.isEmpty then
    " (hot: " ++ String.intercalate " " (s.elsewhere.map fun e => e.2 ++ " " ++ Fixed.text 0 e.1 ++ "%") ++ ")"
  else ""

def row (s : Share) : String :=
  "  " ++ (if s.isBelow then "*" else " ") ++ " " ++ padRight 32 s.name ++ " " ++
    fixed 5 1 (if s.isFailure then 0 else s.percent) ++ "%" ++
    (if s.isFailure then "  <error>" else "") ++ s.elsewhereText

def kindOf : Json → String
  | .null => "NoneType"
  | .list _ => "list"
  | .object _ => "dict"
  | _ => ""

/-- Reads a percentage; texts of numbers are taken too. -/
def readPercent (j : Json) : Except String Float :=
  match j with
  | .int n =>
    match Binary64.ofInt? n with
    | some x => .ok x
    | none => .error "OverflowError: int too large to convert to float"
  | .real x => .ok x
  | .flag b => .ok (if b then 1 else 0)
  | .text s =>
    match Text.readReal? s with
    | some x => .ok x
    | none => .error ("ValueError: could not convert string to float: " ++ Text.quote s)
  | j => .error ("TypeError: float() argument must be a string or a real number, not '" ++
      kindOf j ++ "'")

def readElsewhere (j : Json) : Float × String :=
  match j.elements with
  | [p, name] => (p.toReal, name.shown)
  | _ => (0, "")

def ofJson (j : Json) : Except String (List Share) :=
  let others := part j "hot_ext"
  (part j "repo_time_pct").members.mapM fun m => do
    return ⟨m.1, ← readPercent m.2, (part others m.1).elements.map readElsewhere⟩

def listing (shares : List Share) : List String :=
  if shares.isEmpty then []
  else
    let sorted := shares.mergeSort fun a b => a.percent ≤ b.percent
    ["", "repo_time (target 50%; * = below 45%):"] ++ sorted.map row

end Share

end Cartridge.Bench
