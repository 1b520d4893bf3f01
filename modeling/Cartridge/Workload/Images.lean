import Cartridge.Png.Image
import Cartridge.Png.Input
import Cartridge.Png.View

/-!
# Workloads of images

Square images are written and read, and requests that cannot be met are refused.
-/

namespace Cartridge.Workload

open Png

def square (side : Int) (more : List (String × Value)) : Options :=
  Table.ofList ([("width", .int side), ("height", .int side)] ++ more)

def sampleRows (side : Int) (planes : Nat) : Rows :=
  (List.range side.toNat).map fun (y : Nat) =>
    .ok (.whole (.list ((List.range (side.toNat * planes)).map fun (x : Nat) => .int (x + y))))

/-- Writes packed rows of three bits a sample, which no image holds. -/
def writeImages (side : Int) : Except Fault Value := do
  let w ← Writer.ofOptions (square side [("greyscale", .flag true), ("bitdepth", .int 3)])
  let file ← w.writePacked (sampleRows side 1)
  return .int file.rows

def readImages (side : Int) : Except Fault Value := do
  let w ← Writer.ofOptions (square side [("alpha", .flag true), ("bitdepth", .int 16)])
  let file ← (w.write (sampleRows side 4)).1
  let opened ← Opened.onInput (.file file.bytes)
  let scanned ← (opened.run Reader.readColour).1
  return .int scanned.lines.length

def convertImages (side : Int) : Except Fault Value := do
  let w ← Writer.ofOptions (square side [("interlace", .flag true)])
  let file ← w.writeRaw (List.replicate (side * side * 3).toNat 0)
  return .int file.rows

/-! ### Refusals -/

def refusedOptions : List Options :=
  let colour : Value := .tuple [.int 1, .int 2, .int 3]
  let palette : Value := .list [colour]
  [square 0 [], square (-1) [], square 0x100000000 [],
    Table.ofList [("width", .real 1.5), ("height", .real 1.5)],
    Table.ofList [("size", .tuple [.int 1, .int 1]), ("width", .int 2)],
    Table.ofList [("size", .tuple [.int 1, .int 1]), ("height", .int 2)],
    square 1 [("alpha", .flag true), ("transparent", colour)],
    square 1 [("bytes_per_sample", .int 3)],
    square 1 [("bitdepth", .int 17)],
    square 1 [("palette", palette), ("bitdepth", .int 3)],
    square 1 [("palette", palette), ("transparent", colour)],
    square 1 [("palette", palette), ("alpha", .flag true)],
    square 1 [("palette", palette), ("greyscale", .flag true)],
    square 1 [("greyscale", .flag true), ("transparent", colour)],
    square 1 [("greyscale", .flag true), ("background", .tuple [.real 0.5])],
    square 1 [("background", .tuple [.int 1, .int 2])]]

def refusedPalettes : List Value :=
  let triple : Value := .tuple [.int 1, .int 2, .int 3]
  [.list [.tuple [.int 1]], .list [triple, .tuple [.int 1, .int 2, .int 3, .int 4]],
    .list [.tuple [.int 1, .int 2, .int 256]],
    .list (List.replicate 257 triple)]

def refusedTypes : List (Int × Int) := [(3, 0), (8, 5), (16, 3), (4, 2)]

def refusedFiles : List (List UInt8) :=
  [[0, 1, 2, 3, 4, 5, 6, 7], signature ++ [0, 0, 0], signature ++ bigEndian 4 100 ++ tagOf "IHDR"]

def refusedModes : List String := ["X", "L;x"]

def refusals : List (Except Fault Unit) :=
  (refusedOptions.map fun o => (fun _ => ()) <$> Writer.ofOptions o) ++
  (refusedPalettes.map fun p => (fun _ => ()) <$> checkPalette p) ++
  (refusedTypes.map fun t => checkDepthAndType t.1 t.2) ++
  (refusedFiles.map fun f => do
    let opened ← Opened.onInput (.file ⟨f.toArray⟩)
    (opened.run (Reader.preamble false)).1) ++
  (refusedModes.map fun m => (fun _ => ()) <$>
    Image.ofRows [.list [.int 0]] true (some m) (Table.ofList [])) ++
  [(fun _ => ()) <$> Opened.onInput .notOne,
    do
      let w ← Writer.ofOptions (square 2 [("greyscale", .flag true)])
      (fun _ => ()) <$> (w.write (sampleRows 1 1)).1]

def isRefused : Except Fault Unit → Bool
  | .ok _ => false
  | .error _ => true

/-- Makes all requests `n` times: how often one was refused. -/
def refuse (n : Nat) : Value := .int (n * refusals.countP isRefused : Nat)

end Cartridge.Workload
