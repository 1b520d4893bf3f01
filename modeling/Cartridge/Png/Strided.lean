import Cartridge.Fault

/-!
# Strided assignment

The samples of one channel stand at regular distances in an array.  `every` reads them and
`assign` replaces them.  Neighbouring elements can be replaced by any number of others and
elements further apart only by as many; replacing them by none takes them out.
-/

namespace Cartridge.Png.Strided

variable {α : Type}

/-- The positions `start`, `start + step`, … below `stop`. -/
def positions (start stop step : Nat) : List Nat :=
  (List.range ((stop - start + step - 1) / step)).map fun k => start + k * step

/-- The elements at every `step`th position from `start` to `stop`. -/
def every (xs : Array α) (start stop step : Nat) : List α :=
  (positions start (min stop xs.size) step).filterMap fun i => xs[i]?

/-- Replaces the elements at every `step`th position from `start` to `stop` by `vs`. -/
def assign (xs : Array α) (start stop step : Nat) (vs : List α) : Except Fault (Array α) :=
  let stop := min stop xs.size
  if step = 1 then
    .ok (xs.extract 0 (min start xs.size) ++ vs.toArray ++ xs.extract (max start stop) xs.size)
  else
    let places := positions start stop step
    if vs.isEmpty then
      .ok (xs.zipIdx.filterMap fun e => if places.contains e.2 then none else some e.1)
    else if vs.length ≠ places.length then .error (.plain .value)
    else .ok ((places.zip vs).foldl (fun xs e => xs.setIfInBounds e.1 e.2) xs)

end Cartridge.Png.Strided
