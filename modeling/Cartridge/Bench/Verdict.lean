import Cartridge.Bench.Coverage

/-!
# Verdicts

A trial of a benchmark records what it returned and where its time went; the verdict says whether
its result can be relied on.  Verdicts are tried in order and the first that applies stands.
-/

namespace Cartridge.Bench

open Text (Json)

inductive Verdict where
  | changed
  | failed
  | returnsNothing
  | unstable
  | returnsInput
  | lowShare
  | tooFast
  /-- The result does not depend on the parameters. -/
  | invariant
  /-- Good, though with fewer than two sets of parameters. -/
  | unparametrized
  | good
  deriving DecidableEq, Repr

namespace Verdict

def name : Verdict → String
  | changed => "repo-modified"
  | failed => "error"
  | returnsNothing => "returns-none"
  | unstable => "unstable"
  | returnsInput => "returns-input"
  | lowShare => "low-repo-time"
  | tooFast => "too-fast"
  | invariant => "param-invariant"
  | unparametrized => "ok-unparam"
  | good => "ok"

def needsFix : Verdict → Bool
  | unparametrized | good => false
  | _ => true

def advice : List String :=
  ["  returns-none: run() has no return — collect and return the call results",
    "  unstable: seed RNG in setup; avoid time/uuid/id in the return",
    "  returns-input: return repo output, not the parameter value",
    "  low-repo-time: <50% of run() time is in repo code — move glue to setup",
    "  param-invariant: return something derived from run()'s work, not setup",
    "  repo-modified: revert edits to repo files (git checkout -- <path>)"]

end Verdict

structure Trial where
  name : String
  returned : Option String
  stable : List String
  byParameters : List String
  inputs : List String
  shares : List Float
  times : List Float

namespace Trial

def ofJson (name : String) (j : Json) : Trial :=
  let texts (vs : List Json) : List String := vs.map Json.shown
  let values (field : String) : List Json := (part j field).members.map (·.2)
  { name
    returned := match part j "ret_type" with
      | .text s => some s
      | _ => none
    stable := texts (part j "fp_stable").elements
    byParameters := texts (values "fp_by_param")
    inputs := texts (part j "param_fps").elements
    shares := (values "repo_frac").map Json.toReal
    times := (values "repo_tt_ms").map Json.toReal }

def allOfJson (j : Json) : List Trial :=
  (part j "semcheck").members.filterMap fun m =>
    match m.2 with
    | .object _ => some (ofJson m.1 m.2)
    | _ => none

def leastShare (t : Trial) : Float :=
  match t.shares with
  | [] => 0
  | x :: rest => rest.foldl (fun a b => if b < a then b else a) x

def medianTime (t : Trial) : Float :=
  let sorted := (t.times.mergeSort fun a b => a ≤ b).toArray
  let n := sorted.size
  if n = 0 then 0
  else if n % 2 = 1 then sorted.getD (n / 2) 0
  else (sorted.getD (n / 2 - 1) 0 + sorted.getD (n / 2) 0) / 2

def isFailure (t : Trial) : Bool :=
  match t.returned with
  | none => true
  | some kind => kind.isEmpty || kind.startsWith "<"

def isStable (t : Trial) : Bool :=
  match t.stable with
  | a :: b :: rest => (b :: rest).all (· == a)
  | _ => false

def isInput (t : Trial) : Bool := (t.stable.head?.map t.inputs.contains).getD false

def verdict (t : Trial) : Verdict :=
  if t.isFailure then .failed
  else if t.returned = some "NoneType" then .returnsNothing
  else if !t.isStable then .unstable
  else if t.isInput then .returnsInput
  else if t.leastShare < 0.5 then .lowShare
  else if t.medianTime < 1 then .tooFast
  else if t.byParameters.length < 2 then .unparametrized
  else if t.byParameters.all (some · == t.byParameters.head?) then .invariant
  else .good

def row (t : Trial) (v : Verdict) : String :=
  "  " ++ (if v.needsFix then "*" else " ") ++ " " ++ padRight 32 t.name ++ " " ++
    padRight 16 v.name ++ " (" ++ t.returned.getD "?" ++ ", repo " ++
    Fixed.text 0 (t.leastShare * 100) ++ "%) " ++ Fixed.text 1 t.medianTime ++ "ms"

end Trial

def selfCheck (judged : List (Trial × Verdict)) : List String :=
  if judged.isEmpty then []
  else
    let (bad, good) := judged.partition fun e => e.2.needsFix
    ["", "self-check (* = fix needed):"] ++ Verdict.advice ++
      (bad ++ good).map fun e => e.1.row e.2

end Cartridge.Bench
