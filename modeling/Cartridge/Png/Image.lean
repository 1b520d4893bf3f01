import Cartridge.Png.Writer

/-!
# Images from arrays

`Image.ofRows` makes an image from rows of samples, or rows of pixels that are sequences of
samples, and a mode such as `RGB` or `LA;16`.  What the mode and the rows tell is filled into the
options of the writer; options that are given already have to agree with it.  `Image.save` writes
the image, after which its rows are gone.
-/

namespace Cartridge.Png

structure Image where
  info : Options
  rows : Rows

/-- A colour mode: whether it is grey, whether it has alpha, and the depth it asks for. -/
structure ColourMode where
  grey : Bool
  alpha : Bool
  depth : Option Int
  deriving DecidableEq, Repr

namespace ColourMode

/-- The number of samples of a pixel, counted by the letters of the mode. -/
def planes (m : ColourMode) : Nat := (if m.grey then 1 else 3) + if m.alpha then 1 else 0

def badMode : Fault := imageFault "mode string should be 'RGB' or 'L;16' or similar."

def parse (s : List Char) : Except Fault ColourMode := do
  let (grey, s) ← match s with
    | 'L' :: rest => pure (true, rest)
    | 'R' :: 'G' :: 'B' :: rest => pure (false, rest)
    | _ => throw badMode
  let (alpha, s) := match s with
    | 'A' :: rest => (true, rest)
    | s => (false, s)
  match s.dropWhile (· == ';') with
  | [] => return ⟨grey, alpha, none⟩
  | digits =>
    let n ← demand (Text.Numeral.read? 10 digits) badMode
    return ⟨grey, alpha, some n⟩

end ColourMode

namespace Image

def setDepth (info : Options) (m : ColourMode) : Except Fault Options := do
  match m.depth.filter (· ≠ 0) with
  | none => return info
  | some depth =>
    let given := (info.find? "bitdepth").getD .none
    if given.isTrue && !given.isInt depth then
      match given with
      | .text _ | .list _ => throw (.plain .kind)
      | given =>
        let n ← given.toInt
        throw (imageFault ("mode bitdepth (" ++ toString depth ++
          ") should match info bitdepth (" ++ toString n ++ ")."))
    return info.insert "bitdepth" (.int depth)

def checkDimension (info : Options) (size : Value) (name : String) (axis : Nat) :
    Except Fault Unit := do
  match info.find? name with
  | none => return
  | some given =>
    let there ← demand ((← size.elements)[axis]?) (.plain .index)
    if !given.same there then
      throw (imageFault ("info['" ++ name ++ "'] should match info['size'][" ++ toString axis ++
        "]."))

def setSize (info : Options) : Except Fault Options := do
  match info.find? "size" with
  | none => return info
  | some size =>
    checkDimension info size "width" 0
    checkDimension info size "height" 1
    match ← size.elements with
    | [w, h] => return (info.insert "width" w).insert "height" h
    | _ => throw (.plain .value)

/-- Takes the height from the number of rows, if that is known. -/
def setHeight (info : Options) (count : Option Nat) : Except Fault Options := do
  if info.contains "height" then return info
  let n ← demand count (imageFault "len(a) does not work, supply info['height'] instead.")
  return info.insert "height" (.int n)

/-- Sets an option that follows from the mode, with which a given one has to agree. -/
def setFlag (info : Options) (name : String) (b : Bool) : Except Fault Options := do
  match info.find? name with
  | some given =>
    if given.isTrue != b then
      throw (imageFault ("info['" ++ name ++ "'] should match mode."))
  | none => pure ()
  return info.insert name (.flag b)

/-- The first element of a value, if there is one that can be looked at. -/
def firstOf (v : Value) : Option Value :=
  match v.elements with
  | .ok (v :: _) => some v
  | _ => none

/-- The row whose pixels are sequences, as a stream of samples. -/
def streamOf (row : Value) : Except Fault Row := do
  let pixels ← row.elements
  return .once (pixels.flatMap fun p =>
    match p.elements with
    | .ok vs => vs.map .ok
    | .error fault => [.error fault])

def depthOf : Value → Nat
  | .array w _ => 8 * w.size
  | _ => 8

/-- Makes an image from rows.  The number of rows may be unknown beforehand. -/
def ofRows (rows : List Value) (counted : Bool) (mode : Option String) (info : Options) :
    Except Fault Image := do
  let text ← demand mode (.plain .noMember)
  let m ← ColourMode.parse text.toList
  let info ← setDepth info m
  let info ← setSize info
  let info ← setHeight info (if counted then some rows.length else none)
  let info ← setFlag info "greyscale" m.grey
  let info ← setFlag info "alpha" m.alpha
  if let some given := info.find? "planes" then
    if !given.isInt m.planes then throw (imageFault "info['planes'] should match mode.")
  let first ← demand rows.head? (.plain .exhausted)
  let pixel := firstOf first
  let deep := (pixel.bind firstOf).isSome
  let info ← if info.contains "width" then pure info else do
    let n ← first.length
    pure (info.insert "width" (.int (if deep then n else n / m.planes : Nat)))
  let sample := if deep then pixel.getD .none else first
  let info := if info.contains "bitdepth" then info
    else info.insert "bitdepth" (.int (depthOf sample))
  return ⟨info, rows.map fun row => if deep then streamOf row else .ok (.whole row)⟩

/-- Writes an image; what is left of it has only the rows that were not needed. -/
def save (image : Image) : Except Fault ByteArray × Image :=
  match Writer.ofOptions image.info with
  | .error fault => (.error fault, image)
  | .ok w =>
    let (file, left) := w.write image.rows
    (Writer.File.bytes <$> file, { image with rows := left })

end Image

end Cartridge.Png
