import Cartridge.Png.Filter
import Cartridge.Png.Interlace
import Cartridge.Png.Reader

/-!
# Scanlines

The image data of a file is a sequence of filtered lines, each after the number of its filter.  It
comes in blocks that need not end where a line ends: `Scanlines.feed` takes a block and gives the
lines that are complete with it, and `Scanlines.finish` sees to it that nothing is left over.
`linesOf` does this for all blocks at once.
-/

namespace Cartridge.Png

/-- The bytes that do not make up a line yet, and the line before them. -/
structure Scanlines where
  held : List UInt8 := []
  above : Array UInt8 := #[]

namespace Scanlines

/-- The lines at the start of `held`, and what comes after them.  A line with an unknown filter
ends them with a fault. -/
def complete (rowBytes unit : Nat) (held : List UInt8) (above : Array UInt8) :
    List (Array UInt8) × Except Fault Scanlines :=
  match held with
  | [] => ([], .ok ⟨[], above⟩)
  | number :: rest =>
    if rest.length < rowBytes then ([], .ok ⟨number :: rest, above⟩)
    else
      match undoNumbered number.toNat unit (rest.take rowBytes).toArray above with
      | .error fault => ([], .error fault)
      | .ok line =>
        let (lines, outcome) := complete rowBytes unit (rest.drop rowBytes) line
        (line :: lines, outcome)
termination_by held.length
decreasing_by simp only [List.length_drop, List.length_cons]; omega

def feed (l : Layout) (s : Scanlines) (block : List UInt8) :
    List (Array UInt8) × Except Fault Scanlines :=
  complete l.rowBytes l.unit (s.held ++ block) s.above

def finish (s : Scanlines) : Except Fault Unit :=
  require s.held.isEmpty (formatFault "Wrong size for decompressed IDAT chunk.")

/-- The lines of blocks of image data that follow what is held, and how they end. -/
def run (l : Layout) (s : Scanlines) : List (List UInt8) → List (Array UInt8) × Except Fault Unit
  | [] => ([], s.finish)
  | block :: rest =>
    match s.feed l block with
    | (lines, .error fault) => (lines, .error fault)
    | (lines, .ok s) =>
      let (more, outcome) := s.run l rest
      (lines ++ more, outcome)

end Scanlines

def linesOf (l : Layout) (blocks : List (List UInt8)) : List (Array UInt8) × Except Fault Unit :=
  Scanlines.run l {} blocks

/-! ### Interlaced images -/

/-- Putting an interlaced image together: how much data is used up, the line above in the pass,
and the samples. -/
structure Assembly where
  used : Nat
  above : Array UInt8
  samples : Array Nat

def placeLine (h : Header) (l : Layout) (raw : Array UInt8) (p : Pass) (a : Assembly) (y : Nat) :
    Except Fault Assembly := do
  let pixels := p.lineWidth h.width
  let size := (l.pixelBits * pixels + 7) / 8
  let number ← demand raw[a.used]? (.plain .index)
  let stored := raw.extract (a.used + 1) (a.used + 1 + size)
  let line ← undoNumbered number.toNat l.unit stored a.above
  let flat ← unpackLines h.depth pixels line.toList
  let perRow := h.width * l.planes
  let samples ← if p.xStep = 1 then Strided.assign a.samples (y * perRow) ((y + 1) * perRow) 1 flat
    else
      let values := flat.toArray
      (List.range l.planes).foldlM (fun out i =>
        Strided.assign out (y * perRow + p.xStart * l.planes + i) ((y + 1) * perRow)
          (l.planes * p.xStep) (Strided.every values i values.size l.planes)) a.samples
  return ⟨a.used + 1 + size, line, samples⟩

def deinterlace (h : Header) (l : Layout) (raw : Array UInt8) : Except Fault (Array Nat) := do
  let blank := Array.replicate (h.width * l.planes * h.height) 0
  let done ← (passesFor h.width).foldlM (fun (a : Assembly) p =>
    (p.lines h.height).foldlM (placeLine h l raw p) { a with above := #[] }) ⟨0, #[], blank⟩
  return done.samples

end Cartridge.Png
