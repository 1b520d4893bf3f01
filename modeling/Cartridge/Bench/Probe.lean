import Cartridge.Bench.Fingerprint
import Cartridge.Table

/-!
# Probing benchmarks

A benchmark is called twice as it is and once with each of its sets of parameters, and the
fingerprints of what it returns are noted (`Probe.run`).  A benchmark that fails leaves nothing but
the name of its failure.
-/

namespace Cartridge.Bench

abbrev Arguments := List (String × Specimen)

inductive Behaviour where
  | fails (kind : String)
  /-- Gives the `n`-th value on its `n`-th call, the last one from then on, except for the arguments
  that have a value of their own. -/
  | gives (values : List Specimen) (cases : List (Arguments × Specimen))

structure Benchmark where
  behaviour : Behaviour
  parameters : List Arguments

structure Probe where
  returned : String
  stable : List String := []
  byParameters : Table String String := Table.empty
  inputs : List String := []
  timed : List String := []

namespace Probe

def label (args : Arguments) : String :=
  if args.isEmpty then "-"
  else String.intercalate "," (args.map fun a => a.1 ++ "=" ++ a.2.display)

def call (b : Behaviour) (n : Nat) (args : Arguments) : Except String Specimen :=
  match b with
  | .fails kind => .error kind
  | .gives values cases =>
    match cases.reverse.find? fun c => label c.1 == label args with
    | some c => .ok c.2
    | none => .ok ((values[n]?).getD (values.getLastD .nothing))

def probe (b : Benchmark) : Except String Probe := do
  let first ← call b.behaviour 0 []
  let second ← call b.behaviour 1 []
  let byParameters ← (b.parameters.zipIdx 2).mapM fun (args, n) => do
    return (label args, (← call b.behaviour n args).fingerprint)
  let table := Table.ofList byParameters
  return { returned := first.kind
           stable := [first.fingerprint, second.fingerprint]
           byParameters := table
           inputs := b.parameters.flatMap fun args => args.map fun a => a.2.fingerprint
           timed := "<default>" :: table.keys }

def ofBenchmark (b : Benchmark) : Probe :=
  match probe b with
  | .ok p => p
  | .error kind => { returned := "<" ++ kind ++ ">" }

def isBenchmarkName (name : String) : Bool := name.startsWith "bench_"

/-- Probes all benchmarks among the names of a module; a name that is no benchmark has none. -/
def run (names : Table String (Option Benchmark)) : List (String × Probe) :=
  names.entries.filterMap fun e =>
    if isBenchmarkName e.1 then e.2.map fun b => (e.1, ofBenchmark b) else none

end Probe

end Cartridge.Bench
