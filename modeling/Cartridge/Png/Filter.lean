import Cartridge.Png.Chunk
import Cartridge.Value

/-!
# Scanline filters

Before compression each line of an image may be filtered: every byte is stored as its difference
from a prediction made of the byte one unit to the left (`a`), the byte above (`b`) and the byte
above to the left (`c`), where a unit is the number of bytes of a pixel.  `Filter.predict` gives
the prediction, `applyFilter` stores the differences and `undoFilter` adds the predictions again.
-/

namespace Cartridge.Png

inductive Filter where
  | none
  | sub
  | up
  | average
  | paeth
  deriving DecidableEq, Repr, Inhabited

namespace Filter

def ofNumber? (n : Int) : Option Filter :=
  if n = 0 then some none
  else if n = 1 then some sub
  else if n = 2 then some up
  else if n = 3 then some average
  else if n = 4 then some paeth
  else Option.none

/-- The neighbour nearest to `a + b - c`; of equals the first of `a`, `b`, `c`. -/
def nearest (a b c : Int) : Int :=
  let p := a + b - c
  let pa := (p - a).natAbs
  let pb := (p - b).natAbs
  let pc := (p - c).natAbs
  if pa ≤ pb ∧ pa ≤ pc then a else if pb ≤ pc then b else c

def predict (f : Filter) (a b c : UInt8) : UInt8 :=
  match f with
  | none => 0
  | sub => a
  | up => b
  | average => ((a.toNat + b.toNat) / 2).toUInt8
  | paeth => (nearest a.toNat b.toNat c.toNat).toNat.toUInt8

def looksUp : Filter → Bool
  | none | sub => false
  | up | average | paeth => true

def looksLeft : Filter → Bool
  | none | up => false
  | sub | average | paeth => true

/-- The filter that does the same on the first line, with nothing above it; averages are taken
with zeros instead. -/
def onFirstLine : Filter → Filter
  | up => none
  | paeth => sub
  | f => f

end Filter

def elementAt (xs : Array UInt8) (i : Int) : Except Fault UInt8 :=
  if i < 0 then .error (.plain .index) else demand xs[i.toNat]? (.plain .index)

/-! ### Filtering -/

def predictionAt (f : Filter) (unit : Int) (line above : Array UInt8) (i : Nat) :
    Except Fault UInt8 := do
  let left := (i : Int) - unit
  let inside := f.looksLeft && decide (0 ≤ left)
  let b ← if f.looksUp then elementAt above i else pure 0
  let a ← if inside then elementAt line left else pure 0
  let c ← if inside && f == .paeth then elementAt above left else pure 0
  return f.predict a b c

/-- Filters a line: the number of the filter and the differences. -/
def applyFilter (number : Int) (line : Array UInt8) (unit : Int) (above : Array UInt8) :
    Except Fault (List UInt8) := do
  let f ← demand (Filter.ofNumber? number) .unmet
  let f := if above.isEmpty then f.onFirstLine else f
  let above := if above.isEmpty then Array.replicate line.size 0 else above
  let rest ← line.toList.zipIdx.mapM fun e => do
    let p ← predictionAt f unit line above e.2
    return e.1 - p
  return number.toNat.toUInt8 :: rest

/-! ### Undoing filters -/

def unknownFilter : Fault :=
  formatFault ("Invalid PNG Filter Type." ++
    "  See http://www.w3.org/TR/2003/REC-PNG-20031110/#9Filters .")

/-- The prediction for the next byte, those before it being done. -/
def nextPrediction (f : Filter) (unit : Nat) (above done : Array UInt8) :
    Except Fault UInt8 := do
  let i := done.size
  let inside := f.looksLeft && decide (unit ≤ i)
  let a := if inside then done.getD (i - unit) 0 else 0
  let c ← if inside && f == .paeth then elementAt above (i - unit : Nat) else pure 0
  let b ← if f.looksUp then elementAt above i else pure 0
  return f.predict a b c

/-- Adds the predictions to the differences of a line; nothing above it stands for zeros. -/
def undoFilter (f : Filter) (unit : Nat) (line above : Array UInt8) :
    Except Fault (Array UInt8) :=
  if f = .none then .ok line
  else
    let above := if above.isEmpty then Array.replicate line.size 0 else above
    line.foldlM (fun done x => do
      let p ← nextPrediction f unit above done
      return done.push (x + p)) #[]

def undoNumbered (number : Int) (unit : Nat) (line above : Array UInt8) :
    Except Fault (Array UInt8) :=
  match Filter.ofNumber? number with
  | none => .error unknownFilter
  | some f => undoFilter f unit line above

/-- The least whole number that is not below a double. -/
def ceiling? (x : Float) : Option Nat :=
  match Binary64.parts x with
  | .finite negative m e =>
    let (a, b) := Binary64.quotient m e
    some (if negative then 0 else (a + b - 1) / b)
  | _ => none

/-- Undoes the filter with a number for a pixel size of any kind.  A size that is no integer and
above one is of no use as a distance: only the bytes before the first such distance are done. -/
def undoForSize (number : Int) (size : Value) (line above : Array UInt8) :
    Except Fault (Array UInt8) := do
  if number = 0 then return line
  let f ← demand (Filter.ofNumber? number) unknownFilter
  match size with
  | .real x =>
    if ← size.isAbove 1 then
      if f = .up then undoFilter f 1 line above
      else if f = .sub then throw (.plain .kind)
      else
        let reach := (ceiling? x).getD line.size
        let filled := if above.isEmpty then Array.replicate line.size 0 else above
        let done ← undoFilter f (reach + 1) (line.extract 0 reach) filled
        if reach < line.size then throw (.plain .kind) else return done
    else undoFilter f 1 line above
  | _ =>
    let unit ← if ← size.isAbove 1 then size.toInt else pure 1
    undoFilter f unit.toNat line above

end Cartridge.Png
