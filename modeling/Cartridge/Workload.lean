import Cartridge.Workload.Builds
import Cartridge.Workload.Images

/-!
# Workloads

A workload exercises one part of the library on data of a chosen size and gives a result that is
the same in every run (`Workload.run`).
-/

namespace Cartridge

inductive Workload where
  | maps
  | tilesets
  | characterSets
  | texts
  | imageWriting
  | imageReading
  | rawImages
  | refusing
  | mapBuild
  | dialogBuild
  | pointerListBuild
  deriving DecidableEq, Repr

namespace Workload

def run (w : Workload) (n : Int) : Job Value :=
  match w with
  | maps => mapRoundTrip n.toNat
  | tilesets => tilesetRoundTrip n.toNat
  | characterSets => lookUps n.toNat
  | texts => textCoding n.toNat
  | imageWriting => Job.lift (writeImages n)
  | imageReading => Job.lift (readImages n)
  | rawImages => Job.lift (convertImages n)
  | refusing => return refuse n.toNat
  | mapBuild => buildMaps n
  | dialogBuild => buildDialog n
  | pointerListBuild => buildPointerLists n

def repeated (w : Workload) (n : Int) (runs : Nat) : Job (List Value) :=
  (List.range runs).mapM fun _ => w.run n

end Workload

end Cartridge
