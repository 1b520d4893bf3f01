import Cartridge.Png.Row
import Cartridge.Png.Strided

/-!
# Planes

The samples of a pixel stand side by side, so a channel of an image is every so manieth sample.
`groups` cuts samples into pixels, `interleavePlanes` adds the samples of one image to the pixels
of another, and the conversions to four channels fill the channels of a prepared row.
-/

namespace Cartridge.Png

variable {α : Type}

/-- Groups of `n` elements; a shorter rest is left out. -/
def groups (n : Nat) (xs : List α) : List (List α) :=
  if _h : n = 0 ∨ xs.length < n then [] else xs.take n :: groups n (xs.drop n)
termination_by xs.length
decreasing_by simp only [List.length_drop]; omega

/-! ### Conversions to red, green, blue and alpha -/

def fillGrey (row : List α) (result : Array α) : Except Fault (Array α) :=
  [0, 1, 2].foldlM (fun a i => Strided.assign a i a.size 4 row) result

def fillGreyAlpha (row : Array α) (result : Array α) : Except Fault (Array α) := do
  let a ← fillGrey (Strided.every row 0 row.size 2) result
  Strided.assign a 3 a.size 4 (Strided.every row 1 row.size 2)

def fillColour (row : Array α) (result : Array α) : Except Fault (Array α) :=
  [0, 1, 2].foldlM (fun a i => Strided.assign a i a.size 4 (Strided.every row i row.size 3)) result

/-! ### Interleaving -/

/-- Replaces every `step`th element from `start` on; a step that goes backward reaches none. -/
def assignSigned (xs : Array α) (start stop : Nat) (step : Int) (vs : List α) :
    Except Fault (Array α) :=
  if step = 0 then .error (.plain .value)
  else if step < 0 then if vs.isEmpty then .ok xs else .error (.plain .value)
  else Strided.assign xs start stop step.toNat vs

/-- Puts `size` samples of each pixel of `pixels` at the places from `first` on in pixels of
`total` samples. -/
def placePlanes (out pixels : Array Nat) (count first : Nat) (size total : Int) :
    Except Fault (Array Nat) :=
  (List.range size.toNat).foldlM (fun out i =>
    assignSigned out (first + i) count total (Strided.every pixels i pixels.size size.toNat)) out

def samplesFor (w : Width) (row : Value) : Except Fault (List Nat) :=
  match row with
  | .array v ns => if v = w then .ok ns else .error (.plain .kind)
  | row => do (← row.elements).mapM (numberBelow (Nat.pow 0x100 w.size))

/-- Pixels that have the samples of a pixel of `colours` followed by those of one of `alphas`. -/
def interleavePlanes (colours alphas : Value) (colourSize alphaSize : Int) :
    Except Fault (List Nat) :=
  match colours with
  | .array w cs => do
    let extra ← samplesFor w alphas
    let count := cs.length + extra.length
    let total := colourSize + alphaSize
    let out ← placePlanes (cs ++ extra).toArray cs.toArray count 0 colourSize total
    match alphas with
    | .array _ _ =>
      return (← placePlanes out extra.toArray count colourSize.toNat alphaSize total).toList
    | _ => if 0 < alphaSize then throw (.plain .kind) else return out.toList
  | colours => do
    discard colours.length
    throw (.plain .noMember)

end Cartridge.Png
