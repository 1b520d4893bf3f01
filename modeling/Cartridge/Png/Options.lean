import Cartridge.Png.Chunk
import Cartridge.Table
import Cartridge.Value

/-!
# Writer options

The options of an image writer come as named values.  `Writer.ofOptions` checks them one after the
other, each check with its own message, and settles the colour format: the depth that the file
will have, and the depth of the samples if they are to be rescaled.
-/

namespace Cartridge.Png

def refusal (text : String) : Fault := .noted .value text

/-! ### Checks -/

def itemAt (vs : List Value) (i : Nat) : Value := (vs[i]?).getD .none

/-- Checks that a size and a width and height agree, and gives width and height. -/
def checkSizes (size width height : Value) : Except Fault (Value × Value) := do
  if !size.isTrue then return (width, height)
  let vs ← size.elements
  if vs.length ≠ 2 then throw (refusal "size argument should be a pair (width, height)")
  let w := itemAt vs 0
  let h := itemAt vs 1
  if !width.isNone && !width.same w then
    throw (refusal ("size[0] (" ++ w.render ++ ") and width (" ++ width.render ++
      ") should match when both are used."))
  if !height.isNone && !height.same h then
    throw (refusal ("size[1] (" ++ h.render ++ ") and height (" ++ height.render ++
      ") should match when both are used."))
  return (w, h)

def checkComponent (i : Nat) (v : Value) : Except Fault Unit := do
  let n ← v.toInt
  let fine := match v with
    | .text _ | .bytes _ => false
    | v => v.isInt n && decide (0 ≤ n) && decide (n ≤ 255)
  require fine (refusal ("palette entry " ++ toString i ++
    ": values must be integer: 0 <= x <= 255"))

/-- Checks the entries of a palette from the `i`th on; `triple` says whether one of three
components was seen. -/
def checkEntries (i : Nat) (triple : Bool) : List Value → Except Fault Unit
  | [] => .ok ()
  | t :: rest => do
    let components ← t.elements
    let n := components.length
    if n ≠ 3 ∧ n ≠ 4 then
      throw (refusal ("palette entry " ++ toString i ++ ": entries must be 3- or 4-tuples."))
    let triple := triple || n == 3
    if triple && n == 4 then
      throw (refusal ("palette entry " ++ toString i ++
        ": all 4-tuples must precede all 3-tuples"))
    components.forM (checkComponent i)
    checkEntries (i + 1) triple rest

/-- Checks a palette: up to 256 entries of red, green and blue, the first of which may have an
alpha value. -/
def checkPalette (palette : Value) : Except Fault (Option (List Value)) := do
  if palette.isNone then return none
  let entries ← palette.elements
  if entries.isEmpty ∨ 256 < entries.length then
    throw (refusal "a palette must have between 1 and 256 entries")
  checkEntries 0 false entries
  return some entries

/-- Checks a colour: one whole number if the image is grey and three otherwise. -/
def checkColour (c : Value) (grey : Bool) (which : String) : Except Fault Value := do
  if c.isNone then return c
  if grey then
    let c := match c.elements with
      | .ok _ => c
      | .error _ => .tuple [c]
    let vs ← c.elements
    if vs.length ≠ 1 then throw (refusal (which ++ " for greyscale must be 1-tuple"))
    if !(← (itemAt vs 0).isInteger) then
      throw (refusal (which ++ " colour for greyscale must be integer"))
    return c
  else
    let vs ← c.elements
    let fine ← if vs.length ≠ 3 then pure false else vs.allM Value.isInteger
    if !fine then throw (refusal (which ++ " colour must be a triple of integers"))
    return c

def checkDepthAndType (depth colour : Int) : Except Fault Unit := do
  if !([1, 2, 4, 8, 16].contains depth) then
    throw (formatFault ("invalid bit depth " ++ toString depth))
  if !([0, 2, 3, 4, 6].contains colour) then
    throw (formatFault ("invalid colour type " ++ toString colour))
  let reference := " See http://www.w3.org/TR/2003/REC-PNG-20031110/#table111 ."
  if colour = 3 ∧ 8 < depth then
    throw (formatFault ("Indexed images (colour type " ++ toString depth ++
      ") cannot have bitdepth > 8 (bit depth " ++ toString colour ++ ")." ++ reference))
  if depth < 8 ∧ colour ≠ 0 ∧ colour ≠ 3 then
    throw (formatFault ("Illegal combination of bit depth (" ++ toString depth ++
      ") and colour type (" ++ toString colour ++ ")." ++ reference))

/-! ### Writers -/

abbrev Options := Table String Value

def optionNames : List String :=
  ["width", "height", "size", "greyscale", "alpha", "bitdepth", "palette", "transparent",
    "background", "gamma", "compression", "interlace", "bytes_per_sample", "planes", "colormap",
    "maxval", "chunk_limit", "x_pixels_per_unit", "y_pixels_per_unit", "unit_is_meter"]

structure Writer where
  width : Value
  height : Value
  transparent : Value
  background : Value
  gamma : Value
  grey : Bool
  alpha : Bool
  palette : Option (List Value)
  depth : Nat
  compression : Value
  chunkLimit : Value
  interlaced : Bool
  xPerUnit : Value
  yPerUnit : Value
  unitIsMetre : Bool
  /-- The depth of the samples given, if they are to be rescaled, and the depth in the file. -/
  rescale : Option (Value × Nat)
  deriving Inhabited

namespace Writer

def colourType (w : Writer) : Nat :=
  (if w.alpha then 4 else 0) + (if w.grey then 0 else 2) + (if w.palette.isSome then 1 else 0)

def colourPlanes (w : Writer) : Nat := if w.grey || w.palette.isSome then 1 else 3

def planes (w : Writer) : Nat := w.colourPlanes + if w.alpha then 1 else 0

def pixelSize (w : Writer) : Float := w.depth.toFloat / 8 * w.planes.toFloat

def option (o : Options) (name : String) (default : Value) : Value := (o.find? name).getD default

def isOneOf (v : Value) (ns : List Int) : Bool := ns.any v.isInt

def depthOfBytes (v : Value) : Except Fault Value :=
  if v.same (.real 0.125) then .ok (.int 1)
  else if v.same (.real 0.25) then .ok (.int 2)
  else if v.same (.real 0.5) then .ok (.int 4)
  else if v.isInt 1 then .ok (.int 8)
  else if v.isInt 2 then .ok (.int 16)
  else .error (refusal "bytes per sample must be .125, .25, .5, 1, or 2")

def checkDimensions (width height : Value) : Except Fault Unit := do
  let small ← if ← width.isAtMost 0 then pure true else height.isAtMost 0
  if small then throw (refusal "width and height must be greater than zero")
  let fraction ← if !(← width.isInteger) then pure true else Bool.not <$> height.isInteger
  if fraction then throw (refusal "width and height must be integers")
  let large ← if ← width.isAbove 0xFFFFFFFF then pure true else height.isAbove 0xFFFFFFFF
  if large then throw (refusal "width and height cannot exceed 2**32-1")

def checkDepth (depth : Value) : Except Fault Unit := do
  let whole ← depth.isInteger
  let bad ← if !whole then pure true else do
    if ← depth.isBelow 1 then pure true else depth.isAbove 16
  if bad then
    throw (refusal ("bitdepth (" ++ depth.render ++ ") must be a positive integer <= 16"))

def targetDepth (smallAllowed : Bool) (n : Int) : Nat :=
  if 8 < n then 16 else if smallAllowed && n == 3 then 4 else 8

def ofOptions (o : Options) : Except Fault Writer := do
  if o.keys.any (!optionNames.contains ·) then throw (.plain .kind)
  let get (name : String) : Value := option o name .none
  let (width, height) ← checkSizes (get "size") (get "width") (get "height")
  checkDimensions width height
  let alpha := (get "alpha").isTrue
  let grey := (get "greyscale").isTrue
  let transparent := get "transparent"
  if alpha && !transparent.isNone then
    throw (refusal "transparent colour not allowed with alpha channel")
  let bytes := get "bytes_per_sample"
  let depth ← if bytes.isNone then pure (option o "bitdepth" (.int 8)) else depthOfBytes bytes
  checkDepth depth
  let palette ← checkPalette (get "palette")
  let exact := if palette.isSome then [1, 2, 4, 8]
    else if alpha || !grey then [8, 16] else [1, 2, 4, 8, 16]
  let natural := isOneOf depth exact
  if palette.isSome then
    if !natural then throw (refusal "with palette, bitdepth must be 1, 2, 4, or 8")
    if !transparent.isNone then throw (refusal "transparent and palette not compatible")
    if alpha then throw (refusal "alpha and palette not compatible")
    if grey then throw (refusal "greyscale and palette not compatible")
  let number ← depth.toInt
  let target := if natural then number.toNat else targetDepth (grey && !alpha) number
  let transparent ← checkColour transparent grey "transparent"
  let background ← checkColour (get "background") grey "background"
  return {
    width, height, transparent, background, grey, alpha, palette
    gamma := get "gamma"
    depth := target
    compression := get "compression"
    chunkLimit := option o "chunk_limit" (.int 0x100000)
    interlaced := (get "interlace").isTrue
    xPerUnit := get "x_pixels_per_unit"
    yPerUnit := get "y_pixels_per_unit"
    unitIsMetre := (get "unit_is_meter").isTrue
    rescale := if natural then none else some (depth, target) }

end Writer

end Cartridge.Png
