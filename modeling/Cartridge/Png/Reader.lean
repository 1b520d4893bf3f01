import Cartridge.Png.Options
import Cartridge.Png.Planes

/-!
# Reading chunks

A `Reader` goes through the chunks of an image file and keeps what the chunks before the image
data say: the header, the palette, transparency, background, gamma, sample depths and the size of
a pixel.  A chunk that breaks the format is a fault, but the reader stays where it is and can be
asked again.
-/

namespace Cartridge.Png

inductive Concern where
  | order
  | checksum
  deriving DecidableEq, Repr

structure Warning where
  concern : Concern
  text : String
  deriving DecidableEq, Repr

structure Header where
  width : Nat
  height : Nat
  depth : Nat
  colourType : Nat
  compression : Nat
  filter : Nat
  interlace : Nat
  deriving DecidableEq, Repr

structure Layout where
  indexed : Bool
  grey : Bool
  alpha : Bool
  pixelBits : Nat
  rowBytes : Nat
  deriving DecidableEq, Repr

namespace Layout

def colourPlanes (l : Layout) : Nat := if l.grey || l.indexed then 1 else 3

def planes (l : Layout) : Nat := l.colourPlanes + if l.alpha then 1 else 0

/-- The distance between a byte and the one that belongs to the pixel before. -/
def unit (l : Layout) : Nat := max 1 (l.pixelBits / 8)

/-- The number of bytes of a pixel, a fraction if pixels share bytes. -/
def pixelSize (l : Layout) : Value :=
  if l.pixelBits % 8 = 0 then .int (l.pixelBits / 8 : Nat) else .real (l.pixelBits.toFloat / 8)

def ofHeader (h : Header) : Layout :=
  let indexed := h.colourType % 2 == 1
  let grey := h.colourType / 2 % 2 == 0
  let alpha := h.colourType / 4 % 2 == 1
  let planes := (if grey || indexed then 1 else 3) + if alpha then 1 else 0
  let bits := h.depth * planes
  { indexed, grey, alpha, pixelBits := bits, rowBytes := (h.width * bits + 7) / 8 }

end Layout

structure Reader where
  data : ByteArray
  pos : Nat := 0
  /-- The first bytes of the file, once they were looked at. -/
  signature : List UInt8 := []
  /-- The length and tag of a chunk whose data comes next. -/
  pending : Option (Nat × List UInt8) := none
  header : Option Header := none
  layout : Option Layout := none
  colours : Option (List UInt8) := none
  alphas : Option (List UInt8) := none
  depths : Option (List UInt8) := none
  transparent : Option (List Nat) := none
  background : Option (List Nat) := none
  gamma : Option Float := none
  xPerUnit : Option Nat := none
  yPerUnit : Option Nat := none
  unitIsMetre : Option Bool := none
  warnings : List Warning := []

abbrev Scan := ExceptT Fault (StateM Reader)

namespace Scan

def lift {α : Type} (x : Except Fault α) : Scan α := ExceptT.mk (pure x)

def take (n : Nat) : Scan (List UInt8) :=
  modifyGet fun r =>
    let stop := min (r.pos + n) r.data.size
    ((r.data.extract r.pos stop).data.toList, { r with pos := max r.pos stop })

def warn (concern : Concern) (text : String) : Scan Unit :=
  modify fun r => { r with warnings := r.warnings ++ [⟨concern, text⟩] }

def header : Scan Header := do demand (← get).header (.plain .noMember)

def layout : Scan Layout := do demand (← get).layout (.plain .noMember)

end Scan

namespace Reader

/-! ### Chunks -/

/-- Looks at the first bytes of the file, unless some were looked at before. -/
def checkSignature : Scan Unit := do
  if (← get).signature.isEmpty then
    let found ← Scan.take 8
    modify fun r => { r with signature := found }
    require (found = Png.signature) (formatFault "PNG file has invalid signature.")

/-- The length and tag of the next chunk, if the file goes on. -/
def nextHead : Scan (Option (Nat × List UInt8)) := do
  let bytes ← Scan.take 8
  if bytes.isEmpty then return none
  if bytes.length ≠ 8 then
    throw (formatFault "End of file whilst reading chunk length and type.")
  let length := ofBigEndian (bytes.take 4)
  let tag := bytes.drop 4
  if longestData < length then
    throw (formatFault ("Chunk " ++ Text.quoteBytes tag ++ " is too large: " ++ toString length ++
      "."))
  return some (length, tag)

/-- The length and tag of the chunk to be read, if the file goes on; it stays to be read. -/
def head : Scan (Option (Nat × List UInt8)) := do
  match (← get).pending with
  | some h => return some h
  | none =>
    let h ← nextHead
    modify fun r => { r with pending := h }
    return h

def body : Scan (Chunk × Nat) := do
  let (length, tag) ← demand (← head) (.plain .kind)
  modify fun r => { r with pending := none }
  let data ← Scan.take length
  if data.length ≠ length then
    throw (chunkFault ("Chunk " ++ Text.quoteBytes tag ++ " too short for required " ++
      toString length ++ " octets."))
  let check ← Scan.take 4
  if check.length ≠ 4 then
    throw (chunkFault ("Chunk " ++ Text.quoteBytes tag ++ " too short for checksum."))
  return (⟨tag, data⟩, ofBigEndian check)

/-- Compares the check of a chunk; if `lenient`, a wrong one is only worth a warning. -/
def verify (c : Chunk) (check : Nat) (lenient : Bool) : Scan Unit := do
  let right := (checkOf c.tag c.data).toNat
  if check ≠ right then
    let text := "Checksum error in " ++ Text.quoteBytes c.tag ++ " chunk: 0x" ++
      Text.Numeral.upperHex 8 check ++ " != 0x" ++ Text.Numeral.upperHex 8 right ++ "."
    if lenient then Scan.warn .checksum text else throw (chunkFault text)

/-- The next chunk that is wanted, of at most `fuel` chunks. -/
def find (wanted : List UInt8 → Bool) (lenient : Bool) : Nat → Scan Chunk
  | 0 => throw (.plain .kind)
  | fuel + 1 => do
    let (c, check) ← body
    if wanted c.tag then
      verify c check lenient
      return c
    else find wanted lenient fuel

def chunkBound : Scan Nat := do return (← get).data.size + 1

/-- The next chunk, or the next with the tag `seek`. -/
def chunk (seek : Option (List UInt8)) (lenient : Bool) : Scan Chunk := do
  checkSignature
  find (fun tag => match seek with
    | none => true
    | some s => tag == s) lenient (← chunkBound)

/-- The chunks up to the end chunk, at most `fuel` of them: those that could be read, and why no
more could be. -/
def chunksWithin : Nat → StateM Reader (List Chunk × Except Fault Unit)
  | 0 => return ([], .error (.plain .kind))
  | fuel + 1 => do
    match ← (chunk none false).run with
    | .error f => return ([], .error f)
    | .ok c =>
      if c.tag = tagOf "IEND" then return ([c], .ok ())
      let (rest, outcome) ← chunksWithin fuel
      return (c :: rest, outcome)

/-- The chunks up to the end chunk, as far as they can be read. -/
def chunksRead : StateM Reader (List Chunk × Except Fault Unit) := do
  chunksWithin ((← get).data.size + 1)

def chunks : Scan (List Chunk) := ExceptT.mk do
  let (cs, outcome) ← chunksRead
  return outcome.map fun _ => cs

/-! ### What chunks say -/

def words? (n : Nat) (data : List UInt8) : Option (List Nat) :=
  if data.length = 2 * n then some ((groups 2 data).map ofBigEndian) else none

def takeHeader (data : List UInt8) : Scan Unit := do
  if data.length ≠ 13 then throw (formatFault "IHDR chunk has incorrect length.")
  let byte (i : Nat) : Nat := (data.getD i 0).toNat
  let h : Header := ⟨ofBigEndian (data.take 4), ofBigEndian ((data.drop 4).take 4), byte 8, byte 9,
    byte 10, byte 11, byte 12⟩
  modify fun r => { r with header := some h }
  Scan.lift (checkDepthAndType h.depth h.colourType)
  if h.compression ≠ 0 then
    throw (imageFault ("unknown compression method " ++ toString h.compression))
  if h.filter ≠ 0 then
    throw (formatFault ("Unknown filter method " ++ toString h.filter ++
      ", see http://www.w3.org/TR/2003/REC-PNG-20031110/#9Filters ."))
  if 1 < h.interlace then
    throw (formatFault ("Unknown interlace method " ++ toString h.interlace ++
      ", see http://www.w3.org/TR/2003/REC-PNG-20031110/#8InterlaceMethods ."))
  modify fun r =>
    { r with layout := some (.ofHeader h), colours := none, alphas := none, depths := none }

def hasColours (r : Reader) : Bool := !(r.colours.getD []).isEmpty

def takeColours (data : List UInt8) : Scan Unit := do
  discard Scan.layout
  if (← get).hasColours then Scan.warn .order "Multiple PLTE chunks present."
  modify fun r => { r with colours := some data }
  if data.length % 3 ≠ 0 then
    throw (formatFault "PLTE chunk's length should be a multiple of 3.")
  if Nat.pow 2 (← Scan.header).depth * 3 < data.length then
    throw (formatFault "PLTE chunk is too long.")
  if data.isEmpty then throw (formatFault "Empty PLTE is not allowed.")

def takeBackground (data : List UInt8) : Scan Unit := do
  let l ← Scan.layout
  let fault := formatFault "bKGD chunk has incorrect length."
  if l.indexed then
    if !(← get).hasColours then
      Scan.warn .order "PLTE chunk is required before bKGD chunk."
    match data with
    | [b] => modify fun r => { r with background := some [b.toNat] }
    | _ => throw fault
  else
    let colour ← demand (words? l.colourPlanes data) fault
    modify fun r => { r with background := some colour }

/-- Takes the transparent colour or the alpha values of the palette. -/
def takeTransparency (data : List UInt8) : Scan Unit := do
  modify fun r => { r with alphas := some data }
  let l ← Scan.layout
  if l.indexed then
    let r ← get
    if !r.hasColours then Scan.warn .order "PLTE chunk is required before tRNS chunk."
    else if (r.colours.getD []).length < 3 * data.length then
      throw (formatFault "tRNS chunk is too long.")
  else
    if l.alpha then
      throw (formatFault ("tRNS chunk is not valid with colour type " ++
        toString (← Scan.header).colourType ++ "."))
    let colour ← demand (words? l.colourPlanes data)
      (formatFault "tRNS chunk has incorrect length.")
    modify fun r => { r with transparent := some colour }

def takeGamma (data : List UInt8) : Scan Unit := do
  if data.length ≠ 4 then throw (formatFault "gAMA chunk has incorrect length.")
  modify fun r => { r with gamma := some ((ofBigEndian data).toFloat / 100000.0) }

def takeDepths (data : List UInt8) : Scan Unit := do
  modify fun r => { r with depths := some data }
  let l ← Scan.layout
  if data.length ≠ (if l.indexed then 3 else l.planes) then
    throw (formatFault "sBIT chunk has incorrect length.")

def takeUnit (data : List UInt8) : Scan Unit := do
  if data.length ≠ 9 then throw (formatFault "pHYs chunk has incorrect length.")
  modify fun r => { r with
    xPerUnit := some (ofBigEndian (data.take 4))
    yPerUnit := some (ofBigEndian ((data.drop 4).take 4))
    unitIsMetre := some (data.getD 8 0 != 0) }

/-- Takes what a chunk says; chunks of other kinds say nothing. -/
def takeChunk (c : Chunk) : Scan Unit := do
  if c.tag.any (128 ≤ ·) then throw (.plain .encoding)
  if c.tag = tagOf "IHDR" then takeHeader c.data
  else if c.tag = tagOf "PLTE" then takeColours c.data
  else if c.tag = tagOf "bKGD" then takeBackground c.data
  else if c.tag = tagOf "tRNS" then takeTransparency c.data
  else if c.tag = tagOf "gAMA" then takeGamma c.data
  else if c.tag = tagOf "sBIT" then takeDepths c.data
  else if c.tag = tagOf "pHYs" then takeUnit c.data

/-! ### The preamble -/

/-- Reads chunks until image data comes next, at most `fuel` of them. -/
def preambleWithin (lenient : Bool) : Nat → Scan Unit
  | 0 => throw (formatFault "This PNG file has no IDAT chunks.")
  | fuel + 1 => do
    let (_, tag) ← demand (← head) (formatFault "This PNG file has no IDAT chunks.")
    if tag = tagOf "IDAT" then return
    takeChunk (← chunk none lenient)
    preambleWithin lenient fuel

def preamble (lenient : Bool) : Scan Unit := do
  checkSignature
  preambleWithin lenient (← chunkBound)

/-! ### The palette -/

/-- The entries of the palette, with alpha values if there are any or they are asked for. -/
def palette (forceAlpha : Bool) : Scan (List (List Nat)) := do
  discard Scan.layout
  let r ← get
  if !r.hasColours then
    throw (formatFault "Required PLTE chunk is missing in colour type 3 image.")
  let entries := groups 3 ((r.colours.getD []).map UInt8.toNat)
  let alphas := (r.alphas.getD []).map UInt8.toNat
  if alphas.isEmpty then
    if forceAlpha then throw (.plain .kind) else return entries
  else
    let filled := alphas ++ List.replicate (entries.length - alphas.length) 255
    return (entries.zip filled).map fun e => e.1 ++ [e.2]

end Reader

end Cartridge.Png
