import Cartridge.Deflate.Store
import Cartridge.Png.Interlace
import Cartridge.Png.Options
import Cartridge.Png.Planes

/-!
# Writing images

A `Writer` turns rows of samples into an image file: the header chunks that its options ask for
(`headChunks`), the rows, each after a zero that says that it is not filtered (`encodeRows`), in
as many chunks as they need (`dataChunks`), and the end.
-/

namespace Cartridge.Png

/-- A sequence of rows; a row that cannot be made ends it. -/
abbrev Rows := List (Except Fault Row)

def sliceOf (v : Value) (start stop : Nat) : Except Fault Value :=
  let cut {α : Type} (xs : List α) : List α := (xs.take stop).drop start
  match v with
  | .text s => .ok (.text (String.ofList (cut s.toList)))
  | .bytes b => .ok (.bytes (cut b))
  | .array w ns => .ok (.array w (cut ns))
  | .list vs => .ok (.list (cut vs))
  | .tuple vs => .ok (.tuple (cut vs))
  | _ => .error (.plain .kind)

namespace Writer

variable (w : Writer)

/-! ### Headers -/

def headerChunk : Except Fault Chunk := do
  let width ← fieldOf 4 w.width
  let height ← fieldOf 4 w.height
  return .named "IHDR" (width ++ height ++
    [w.depth.toUInt8, w.colourType.toUInt8, 0, 0, if w.interlaced then 1 else 0])

/-- The chunk with the gamma value in units of a hundred thousandth. -/
def gammaChunk : Except Fault (List Chunk) := do
  if w.gamma.isNone then return []
  let x ← w.gamma.toReal
  let n ← roundReal (x * 1e5)
  return [.named "gAMA" (← fieldOf 4 (.int n))]

def depthChunk : Except Fault (List Chunk) :=
  match w.rescale with
  | none => .ok []
  | some (given, _) => do
    let b ← fieldOf 1 given
    return [.named "sBIT" (List.replicate w.planes b).flatten]

/-- The colour and, if there is one, the alpha value of a palette entry. -/
def entryBytes (entry : Value) : Except Fault (List UInt8 × List UInt8) := do
  let bs ← (← entry.elements).mapM byteOf
  return (bs.take 3, bs.drop 3)

def paletteChunks : Except Fault (List Chunk) :=
  match w.palette with
  | none => .ok []
  | some entries => do
    let split ← entries.mapM entryBytes
    let alphas := split.flatMap (·.2)
    return .named "PLTE" (split.flatMap (·.1)) ::
      if alphas.isEmpty then [] else [.named "tRNS" alphas]

def colourChunk (name : String) (colour : Value) : Except Fault (List Chunk) := do
  if colour.isNone then return []
  let fields ← (← colour.elements).mapM (fieldOf 2)
  return [.named name fields.flatten]

def unitChunk : Except Fault (List Chunk) := do
  if w.xPerUnit.isNone || w.yPerUnit.isNone then return []
  let x ← fieldOf 4 w.xPerUnit
  let y ← fieldOf 4 w.yPerUnit
  return [.named "pHYs" (x ++ y ++ [if w.unitIsMetre then 1 else 0])]

def checkCompression : Except Fault Unit :=
  if w.compression.isNone then .ok ()
  else match w.compression.whole? with
    | none => .error (.plain .kind)
    | some n =>
      if n < -0x80000000 ∨ 0x80000000 ≤ n then .error (.plain .overflow)
      else if n < -1 ∨ 9 < n then .error (.plain .value)
      else .ok ()

def headChunks : Except Fault (List Chunk) := do
  let header ← w.headerChunk
  let gamma ← w.gammaChunk
  let depth ← w.depthChunk
  let palette ← w.paletteChunks
  let transparent ← colourChunk "tRNS" w.transparent
  let background ← colourChunk "bKGD" w.background
  let unit ← w.unitChunk
  w.checkCompression
  return header :: gamma ++ depth ++ palette ++ transparent ++ background ++ unit

/-! ### Rows -/

/-- The factor from the depth of the samples to the depth in the file. -/
def scaleFactor (given : Value) (target : Nat) : Float :=
  let top (n : Nat) : Float := (Nat.pow 2 n - 1).toFloat
  let n := match given.toInt with
    | .ok n => n.toNat
    | .error _ => 0
  top target / top n

/-- How rows are added; rows of packed bytes are added as they are. -/
def sink (packed : Bool) : Sink :=
  let plain := if packed || w.depth == 8 then Sink.bytes
    else if w.depth == 16 then Sink.words else Sink.packed w.depth
  match w.rescale with
  | none => plain
  | some (given, target) => Sink.mapped (scaled (scaleFactor given target)) plain

/-- Adds rows after the first to `data`: the bytes and the number of rows, and the rows that are
left.  The bytes come in parts; a part ends when it is longer than the limit. -/
def addRows (sink : Sink) (data : Array UInt8) (count : Nat) :
    Rows → Except Fault (List (List UInt8) × Nat) × Rows
  | [] => (.ok ([data.toList], count), [])
  | .error fault :: _ => (.error fault, [])
  | .ok row :: rest =>
    let a := sink row
    let data := data.push 0 ++ a.added.toArray
    match a.outcome.bind fun _ => w.chunkLimit.isBelow data.size with
    | .error fault => (.error fault, rest)
    | .ok false => addRows sink data (count + 1) rest
    | .ok true =>
      let (result, left) := addRows sink #[] (count + 1) rest
      (result.map fun r => (data.toList :: r.1, r.2), left)

def encodeRows (packed : Bool) : Rows → Except Fault (List (List UInt8) × Nat) × Rows
  | [] => (.error (.plain .exhausted), [])
  | .error fault :: _ => (.error fault, [])
  | .ok row :: rest =>
    let sink := w.sink packed
    let a := sink row
    let data := #[0] ++ a.added.toArray
    match a.outcome with
    | .ok _ => w.addRows sink data 1 rest
    | .error _ =>
      let sink := Sink.mapped cutToInt sink
      let b := sink a.left
      match b.outcome with
      | .error fault => (.error fault, rest)
      | .ok _ => w.addRows sink (data ++ b.added.toArray) 1 rest

/-- The chunks of image data that comes in parts.  Compressed data that is too long for one chunk
goes into several. -/
def dataChunks (parts : List (List UInt8)) : List Chunk :=
  (Deflate.deflate parts).flatMap fun piece =>
    (Tile.chunks (longestData - 1) piece).map (.named "IDAT")

structure File where
  bytes : ByteArray
  rows : Nat

/-- The file with the given rows in the order in which they are stored. -/
def writePasses (packed : Bool) (rows : Rows) : Except Fault File × Rows :=
  match w.headChunks with
  | .error fault => (.error fault, rows)
  | .ok head =>
    match w.encodeRows packed rows with
    | (.error fault, left) => (.error fault, left)
    | (.ok (parts, n), left) =>
      (.ok ⟨encodeFile (head ++ dataChunks parts ++ [.named "IEND" []]), n⟩, left)

/-! ### Pixel arrays -/

def sampleWidth : Width := if 8 < w.depth then .short else .byte

def sampleBound : Nat := Nat.pow 0x100 w.sampleWidth.size

def dimension (v : Value) : Nat := ((v.whole?).getD 0).toNat

def perRow : Nat := dimension w.width * w.planes

def straightRows (pixels : Value) : Rows :=
  (List.range (dimension w.height)).map fun y =>
    Row.whole <$> sliceOf pixels (y * w.perRow) ((y + 1) * w.perRow)

def passRow (pixels : Array Nat) (p : Pass) (y : Nat) : Except Fault (List Nat) :=
  let offset := y * w.perRow
  if p.xStep = 1 then .ok (pixels.extract offset (offset + w.perRow)).toList
  else do
    let first := pixels.extract 0 (p.lineWidth (dimension w.width) * w.planes)
    let row ← (List.range w.planes).foldlM (fun row i =>
      Strided.assign row i row.size w.planes
        (Strided.every pixels (offset + p.xStart * w.planes + i) (offset + w.perRow)
          (w.planes * p.xStep))) first
    return row.toList

/-- The rows of all passes of an image whose samples come row after row. -/
def interlacedRows (pixels : Array Nat) : Rows :=
  (passLines (dimension w.width) (dimension w.height)).map fun e =>
    (fun ns => Row.whole (.array w.sampleWidth ns)) <$> w.passRow pixels e.1 e.2

/-- The rows of all passes for pixels of any kind; only an array of the right width will do. -/
def interlacedRowsOf (pixels : Value) : Rows :=
  match pixels with
  | .array width ns => if width = w.sampleWidth then w.interlacedRows ns.toArray
    else [.error (.plain .kind)]
  | v =>
    let n := (passes.head?.map fun p => p.lineWidth (dimension w.width) * w.planes).getD 0
    let fault : Fault := match (do
        let vs ← (← sliceOf v 0 n).elements
        vs.forM fun v => discard (numberBelow w.sampleBound v) : Except Fault Unit) with
      | .error fault => fault
      | .ok _ => .plain .kind
    [.error fault]

def allSamples (rows : Rows) : Except Fault (List Nat) := do
  let rows ← rows.mapM id
  let parts ← rows.mapM fun row => do
    let (ns, out, _) := (match row.elements with
      | .error fault => ([], .error fault, [])
      | .ok es => Row.readWhile (numberBelow w.sampleBound) es :
        List Nat × Except Fault Unit × List (Except Fault Value))
    out
    return ns
  return parts.flatten

/-! ### The ways of writing -/

def writeArray (pixels : Value) : Except Fault File :=
  (w.writePasses false (if w.interlaced then w.interlacedRowsOf pixels
    else w.straightRows pixels)).1

/-- Writes an image from its rows, which have to be as many as it is high. -/
def write (rows : Rows) : Except Fault File × Rows :=
  if w.interlaced then
    match w.allSamples rows with
    | .error fault => (.error fault, [])
    | .ok ns => (w.writeArray (.array w.sampleWidth ns), [])
  else
    match w.writePasses false rows with
    | (.error fault, left) => (.error fault, left)
    | (.ok file, left) =>
      if w.height.isInt file.rows then (.ok file, left)
      else
        (.error (refusal ("rows supplied (" ++ toString file.rows ++ ") does not match height (" ++
          toString (dimension w.height) ++ ")")), left)

def writePacked (rows : Rows) : Except Fault File :=
  match w.rescale with
  | some (given, _) => do
    let n ← given.toInt
    throw (imageFault ("write_packed method not suitable for bit depth " ++ toString n))
  | none => (w.writePasses true rows).1

/-- The rows of an image in raw bytes, two to a sample if it is deep. -/
def rawRows (data : List UInt8) : Rows :=
  (List.range (dimension w.height)).map fun y =>
    let n := if 8 < w.depth then 2 * w.perRow else w.perRow
    let bytes := (data.drop (y * n)).take n
    if 8 < w.depth then
      if bytes.length = n then (fun ns => Row.whole (.array .short ns)) <$> unpackWords bytes
      else .error (.plain .field)
    else .ok (.whole (.array .byte (bytes.map UInt8.toNat)))

/-- The number of raw bytes of an image with the given number of samples a pixel.  It is computed
as a quotient, so it is never an integer. -/
def rawSize (planes : Nat) : Value :=
  .real (w.depth.toFloat / 8 * (planes * dimension w.width * dimension w.height).toFloat)

/-- The first `count` bytes; only an integer can count them. -/
def takeRaw (count : Value) (data : List UInt8) : Except Fault (List Nat) := do
  let n ← demand count.whole? (.plain .kind)
  return (data.take n.toNat).map UInt8.toNat

def writeRaw (data : List UInt8) : Except Fault File :=
  if w.interlaced then do
    let ns ← takeRaw (w.rawSize w.colourPlanes) data
    w.writeArray (.array .byte ns)
  else (w.writePasses false (w.rawRows data)).1

def writeRawWithAlpha (colours alphas : List UInt8) : Except Fault File := do
  let cs ← takeRaw (w.rawSize w.colourPlanes) colours
  let as ← takeRaw (w.rawSize 1) alphas
  let ns ← interleavePlanes (.array .byte cs) (.array .byte as) w.colourPlanes 1
  w.writeArray (.array .byte ns)

def writeLines (rows : List (List Int)) : Except Fault ByteArray :=
  File.bytes <$> (w.write (rows.map fun r => .ok (.whole (.list (r.map .int))))).1

end Writer

end Cartridge.Png
