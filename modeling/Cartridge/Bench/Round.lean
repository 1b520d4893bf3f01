import Cartridge.Bench.Shares
import Cartridge.Bench.Verdict

/-!
# Measurement rounds

A round measures the benchmarks once: coverage first, then time shares, changed files and the
self-check, each from a process of its own.  `Round.run` gives the report of the round, and a
checkpoint from which later rounds see whether the shares still improve.
-/

namespace Cartridge.Bench

open Text (Json)

/-- What a child process gave; one that is not needed gives nothing. -/
inductive Child where
  | ended (code : Int) (out err : String)
  | unstarted (reason : String)

structure Surroundings where
  record : Option String
  source : Option String
  checkpoints : Option String
  coverage : Child
  shares : Child
  changes : Child
  selfCheck : Child
  began : Json
  ended : Json
  now : Json

structure Outcome where
  exit : Option Int
  report : String
  errors : String
  checkpoint : Option Json

namespace Round

/-! ### Processes -/

def lastLine (out : String) : Option (List Char) :=
  (Text.splitAtBreaks (Text.strip out).toList).getLast?

/-- Reads what a process printed last: what it found if it printed anything, and complaints. -/
def found {α : Type} (title : String) (read : Json → Except String α) : Child → Option α × String
  | .unstarted reason => (none, "[" ++ title ++ " runner: RuntimeError: " ++ reason ++ "]\n")
  | .ended _ out err =>
    let complaint (text : String) : String := err ++ "[" ++ title ++ " runner: " ++ text ++ "]\n"
    if (Text.strip out).isEmpty then (none, err)
    else
      let line := (lastLine out).getD []
      match Json.parse line with
      | .error flaw => (none, complaint ("JSONDecodeError: " ++ flaw.message line))
      | .ok j =>
        match read j with
        | .error text => (none, complaint text)
        | .ok a => (some a, err)

def changedPaths : Child → List String
  | .unstarted _ => []
  | .ended _ out _ =>
    ((Text.splitAtBreaks out.toList).filter fun l => !l.all Text.isBlank).map fun l =>
      String.ofList (l.drop 3)

def changeLines (paths : List String) : List String :=
  if paths.isEmpty then []
  else ["", "** repo modified (" ++ toString paths.length ++
    " file(s)) — revert these; only microbench.py is yours to edit:"] ++
    (paths.take 10).map ("   " ++ ·)

/-! ### Benchmarks -/

def isNamePart (c : Char) : Bool := c.isAlphanum || c == '_' || 128 ≤ c.toNat

def startsBenchmark (s : List Char) : Bool :=
  let lead := "def bench_".toList
  lead.isPrefixOf s &&
    let (name, rest) := (s.drop lead.length).span isNamePart
    !name.isEmpty && (Text.trimLeft Text.isBlank rest).head? == some '('

def benchmarks (s : List Char) : Nat :=
  let rec go (atStart : Bool) : List Char → Nat
    | [] => 0
    | c :: rest => (if atStart && startsBenchmark (c :: rest) then 1 else 0) + go (c == '\n') rest
  go true s

/-! ### Earlier rounds -/

def checkpointLines (s : List Char) : List (List Char) :=
  (Text.splitOn '\n' s).filter fun l => !l.all Text.isBlank

def earlier? (lines : List (List Char)) : Option (List Json) :=
  lines.mapM fun l => (Json.parse l).toOption

def history (earlier : List Json) (current : Option Nat) : List Int :=
  earlier.filterMap (fun j => match part j "n_below_repo_time" with
    | .int n => some n
    | _ => none) ++ (current.map fun (n : Nat) => (n : Int)).toList

def least (ns : List Int) : Option Int :=
  match ns with
  | [] => none
  | n :: rest => some (rest.foldl min n)

def patience : Nat := 3

def enoughCoverage : Float := 60

def stopReason (percent : Float) (below : Option Nat) (past : List Int) : Option String :=
  if percent ≥ enoughCoverage && below == some 0 then some "0 below"
  else if below.isNone then none
  else do
    let before ← least (past.take (past.length - patience))
    let lately ← least (past.drop (past.length - patience))
    if before ≤ lately then
      some ("no improvement in " ++ toString patience ++ " rounds; best " ++ toString before ++ " below")
    else none

def stopLines (reason : Option String) : List String :=
  match reason with
  | none => []
  | some text => ["", ">>> STOP: repo_time converged (" ++ text ++ "). Finalize microbench.py now. <<<"]

/-! ### The round -/

/-- A number rounded to thousandths, an integer staying as it is. -/
def thousandths : Json → Json
  | .real x => .real (Fixed.round 3 x)
  | j => j

def record (fields : List (String × Json)) : Json := .object (Table.ofList fields)

structure Findings where
  number : Nat
  benchmarks : Nat
  coverage : Coverage
  elapsed : Json
  shares : List Share
  judged : List (Trial × Verdict)

namespace Findings

def below (f : Findings) : Option Nat :=
  if f.shares.isEmpty then none else some (f.shares.countP Share.isBelow)

def toMend (f : Findings) : Nat := f.judged.countP fun e => e.2.needsFix

def summary (f : Findings) : String :=
  let sharePart := match f.below with
    | none => ""
    | some n => ", " ++ toString n ++ "/" ++ toString (f.shares.countP fun s => !s.isFailure) ++
      " below repo_time 45%"
  let checkPart := if f.judged.isEmpty then "" else
    ", " ++ toString f.toMend ++ "/" ++ toString f.judged.length ++ " not self-checking"
  "[round " ++ toString f.number ++ ": " ++ toString f.benchmarks ++ " benches, " ++
    Fixed.text 1 f.coverage.percent ++ "% covered" ++ sharePart ++ checkPart ++ ", measured in " ++
    Fixed.text 1 f.elapsed.toReal ++ "s]"

def checkpoint (f : Findings) (now : Json) (earlier : List Json) : Json :=
  let since := match earlier.getLast? with
    | none => .real 0
    | some last => thousandths (now.minus ((last.get? "ts").getD now))
  record [("round", .int f.number), ("ts", now), ("wall_since_prev_s", since),
    ("coverage_pct", .real f.coverage.percent), ("covered_lines", f.coverage.covered),
    ("num_statements", f.coverage.statements), ("n_bench_fns", .int f.benchmarks),
    ("n_bench_errors", .int f.coverage.failures), ("cov_measure_s", thousandths f.elapsed),
    ("repo_time_pct", record (f.shares.map fun s => (s.name, .real s.percent))),
    ("n_below_repo_time", match f.below with
      | none => .null
      | some n => .int n),
    ("semcheck", record (f.judged.map fun e => (e.1.name, .text e.2.name))),
    ("n_not_self_checking", .int f.toMend)]

end Findings

def textOf (lines : List String) : String := String.join (lines.map (· ++ "\n"))

def measured (s : Surroundings) (err : String) : Except Fault Outcome := do
  let text ← demand s.record (.plain .fileMissing)
  let coverage ← match Json.parse text.toList with
    | .ok j => pure (Coverage.ofJson j)
    | .error _ => throw (.plain .notJson)
  let (shares, shareErrors) := found "repotime" Share.ofJson s.shares
  let changes := changedPaths s.changes
  let (trials, trialErrors) := found "semcheck" (fun j => .ok (Trial.allOfJson j)) s.selfCheck
  let lines := checkpointLines (s.checkpoints.getD "").toList
  let f : Findings :=
    { number := lines.length + 1
      benchmarks := benchmarks (s.source.getD "").toList
      coverage
      elapsed := s.ended.minus s.began
      shares := shares.getD []
      judged := (trials.getD []).map fun t => (t, if changes.isEmpty then t.verdict else .changed) }
  let earlier := earlier? lines
  let reason := earlier.bind fun e => stopReason coverage.percent f.below (history e f.below)
  return { exit := none
           report := textOf (coverage.table ++ Share.listing f.shares ++ changeLines changes ++
             Bench.selfCheck f.judged ++ ["", f.summary] ++ stopLines reason)
           errors := err ++ shareErrors ++ trialErrors
           checkpoint := earlier.map (f.checkpoint s.now) }

def run (s : Surroundings) : Except Fault Outcome :=
  match s.coverage with
  | .unstarted _ => throw (.plain .nothingPending)
  | .ended code out err =>
    if code = 0 then measured s err
    else return { exit := some code
                  report := textOf ["coverage measurement failed (exit " ++ toString code ++ ")", out]
                  errors := err
                  checkpoint := none }

end Round

end Cartridge.Bench
