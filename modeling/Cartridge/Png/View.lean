import Cartridge.Deflate.Inflate
import Cartridge.Png.Scanlines

/-!
# Views of an image

A `View` is an image about to be read: its size, what is known about it, and how its lines are
converted.  `Reader.stored` gives the image as it is stored.  The other views take it from there:

* `Reader.direct` replaces palette entries by colours and the transparent colour by an alpha
  channel, and reduces samples to the depth they had;
* `Reader.colour` and `Reader.colourAlpha` turn grey into colours, the latter with alpha;
* `View.rescale` changes the depth.

Lines are converted while the file is read, so the first fault of either kind ends the reading
where it occurs (`View.each`).
-/

namespace Cartridge.Png

structure Info where
  grey : Bool
  alpha : Bool
  planes : Nat
  depth : Nat
  interlace : Nat
  width : Nat
  height : Nat
  gamma : Option Float := none
  transparent : Option (List Nat) := none
  background : Option (List Nat) := none
  palette : Option (List (List Nat)) := none
  /-- Whether samples were palette indices before they were replaced. -/
  replaced : Bool := false

/-- The samples of a line.  Samples whose depth was reduced are loose: they cannot be put into the
channels of another line. -/
structure Line where
  samples : List Nat
  loose : Bool := false

inductive Source where
  | stored (lines : List (List Nat))
  | streamed (lenient : Bool)

structure View where
  info : Info
  source : Source
  convert : List Nat → Except Fault Line

/-! ### Image data -/

/-- Compressed data as far as it came, and how much was taken out of it. -/
structure Inflow where
  given : ByteArray := ByteArray.empty
  taken : Nat := 0

def Inflow.add (s : Inflow) (data : List UInt8) : Except Fault (List UInt8 × Inflow) :=
  let given := s.given ++ ⟨data.toArray⟩
  let r := Deflate.inflate given
  if r.status = .malformed then .error (.plain .stream)
  else .ok ((r.output.extract s.taken r.output.size).toList, ⟨given, r.output.size⟩)

namespace Reader

/-- The next part of the image data, among at most `fuel` chunks; none at the end chunk. -/
def nextData (lenient : Bool) : Nat → Scan (Option (List UInt8))
  | 0 => throw (.plain .kind)
  | fuel + 1 => do
    let c ← chunk none lenient
    if c.tag = tagOf "IEND" then return none
    if c.tag ≠ tagOf "IDAT" then nextData lenient fuel
    else
      let l ← Scan.layout
      if l.indexed && !(← get).hasColours then
        Scan.warn .order "PLTE chunk is required before IDAT chunk"
      return some c.data

/-- All image data, in at most `fuel` parts. -/
def dataWithin (lenient : Bool) : Nat → Inflow → Scan (List UInt8)
  | 0, _ => throw (.plain .kind)
  | fuel + 1, inflow => do
    match ← nextData lenient (← chunkBound) with
    | none => return []
    | some part =>
      let (bytes, inflow) ← Scan.lift (inflow.add part)
      return bytes ++ (← dataWithin lenient fuel inflow)

def interlacedLines (lenient : Bool) : Scan (List (List Nat)) := do
  let raw ← dataWithin lenient (← chunkBound) {}
  let h ← Scan.header
  let l ← Scan.layout
  let samples ← Scan.lift (deinterlace h l raw.toArray)
  let perRow := h.width * l.planes
  if perRow = 0 then throw (.plain .kind)
  return groups perRow samples.toList

/-- The lines of an image that is not interlaced, converted as they come, in at most `fuel` parts
of image data. -/
def streamWithin {α : Type} (lenient : Bool) (convert : List Nat → Except Fault α) :
    Nat → Inflow → Scanlines → Scan (List α)
  | 0, _, _ => throw (.plain .kind)
  | fuel + 1, inflow, held => do
    match ← nextData lenient (← chunkBound) with
    | none =>
      Scan.lift held.finish
      return []
    | some part =>
      let (bytes, inflow) ← Scan.lift (inflow.add part)
      let h ← Scan.header
      let (lines, outcome) := held.feed (← Scan.layout) bytes
      let converted ← Scan.lift (lines.mapM fun line =>
        unpackLine h.depth h.width line.toList >>= convert)
      let held ← Scan.lift outcome
      return converted ++ (← streamWithin lenient convert fuel inflow held)

/-! ### Views -/

def stored (lenient : Bool) : Scan View := do
  preamble lenient
  let h ← Scan.header
  let source ← if h.interlace ≠ 0 then Source.stored <$> interlacedLines lenient
    else pure (.streamed lenient)
  let l ← Scan.layout
  let r ← get
  let palette ← if r.hasColours then some <$> palette false else pure none
  return {
    info := {
      grey := l.grey, alpha := l.alpha, planes := l.planes, depth := h.depth
      interlace := h.interlace, width := h.width, height := h.height, gamma := r.gamma
      transparent := r.transparent, background := r.background, palette }
    source
    convert := fun ns => .ok { samples := ns } }

def replaceIndices (v : View) (entries : List (List Nat)) (alpha : Bool) : View :=
  let entries := entries.toArray
  { v with
    info := { v.info with
      replaced := true, alpha, depth := 8, planes := if alpha then 4 else 3 }
    convert := fun ns => do
      let line ← v.convert ns
      let colours ← line.samples.mapM fun n => demand entries[n]? (.plain .index)
      return { samples := colours.flatten } }

def addAlpha (v : View) (transparent : Option (List Nat)) : View :=
  let top := Nat.pow 2 v.info.depth - 1
  { v with
    info := { v.info with alpha := true, planes := v.info.planes + 1 }
    convert := fun ns => do
      let line ← v.convert ns
      let pixels ← (groups v.info.planes line.samples).mapM fun p => do
        let t ← demand transparent (.plain .kind)
        return p ++ [if p = t then 0 else top]
      return { samples := pixels.flatten } }

def reduceDepth (v : View) (fileDepth : Nat) (depths : List UInt8) : Except Fault View := do
  let ns := depths.map UInt8.toNat
  if ns.isEmpty then return v
  let target := ns.foldl max 0
  if v.info.depth < target then
    throw (imageFault ("sBIT chunk " ++ Text.parenthesized (ns.map toString) ++
      " exceeds bitdepth " ++ toString fileDepth))
  if ns.contains 0 then
    match ns with
    | [n] => throw (imageFault ("sBIT chunk " ++ toString n ++ " has a 0-entry"))
    | _ => throw (.plain .kind)
  if target = v.info.depth then return v
  let shift := v.info.depth - target
  return { v with
    info := { v.info with depth := target }
    convert := fun ns => do
      let line ← v.convert ns
      return ⟨line.samples.map (· / Nat.pow 2 shift), true⟩ }

/-- The image with colours in place of palette indices and an alpha channel in place of a
transparent colour. -/
def direct : Scan View := do
  preamble false
  let l ← Scan.layout
  let r ← get
  let alphas := r.alphas.getD []
  let v ← stored false
  let v ← if l.indexed then do
      let entries ← palette false
      pure (replaceIndices v entries !alphas.isEmpty)
    else pure (if alphas.isEmpty then v else addAlpha v r.transparent)
  Scan.lift (reduceDepth v (← Scan.header).depth (r.depths.getD []))

def fixedSamples (line : Line) : Except Fault (List Nat) :=
  if line.loose then .error (.plain .kind) else .ok line.samples

def colour : Scan View := do
  let v ← direct
  if v.info.alpha then throw (imageFault "will not convert image with alpha channel to RGB")
  if !v.info.grey then return v
  return { v with
    info := { v.info with grey := false }
    convert := fun ns => do
      let samples ← fixedSamples (← v.convert ns)
      let blank := Array.replicate (3 * v.info.width) 0
      let out ← [0, 1, 2].foldlM (fun a i => Strided.assign a i a.size 3 samples) blank
      return { samples := out.toList } }

def colourAlpha : Scan View := do
  let v ← direct
  if v.info.alpha && !v.info.grey then return v
  return { v with
    info := { v.info with alpha := true, grey := false }
    convert := fun ns => do
      let samples ← fixedSamples (← v.convert ns)
      let full := Array.replicate (4 * v.info.width) (Nat.pow 2 v.info.depth - 1)
      let out ← if v.info.alpha then fillGreyAlpha samples.toArray full
        else if v.info.grey then fillGrey samples full
        else fillColour samples.toArray full
      return { samples := out.toList } }

end Reader

namespace View

def top (v : View) : Nat := Nat.pow 2 v.info.depth - 1

def factor (a : Float) (n : Nat) : Except Fault Float :=
  if n = 0 then .error (.plain .zeroDivision) else .ok (a / n.toFloat)

def rescale (v : View) (depth : Nat) : Except Fault View := do
  let top := Nat.pow 2 depth - 1
  let ratio ← factor top.toFloat v.top
  let info := { v.info with depth }
  if v.top = top then return { v with info }
  return { v with
    info
    convert := fun ns => do
      let line ← v.convert ns
      let samples ← line.samples.mapM fun n => Int.toNat <$> roundReal (n.toFloat * ratio)
      return ⟨samples, true⟩ }

def each {α : Type} (v : View) (f : List Nat → Except Fault α) : Scan (List α) :=
  let convert := fun ns => do f (← v.convert ns).samples
  match v.source with
  | .stored ls => Scan.lift (ls.mapM convert)
  | .streamed lenient => do Reader.streamWithin lenient convert (← Reader.chunkBound) {} {}

def lines (v : View) : Scan (List (List Nat)) := v.each .ok

end View

/-! ### Images -/

structure Scanned where
  info : Info
  lines : List (List Nat)

/-- An image with samples between zero and a largest value. -/
structure ScannedReals where
  info : Info
  top : Float
  lines : List (List Float)

namespace Reader

def finish (view : Scan View) : Scan Scanned := do
  let v ← view
  return ⟨v.info, ← v.lines⟩

def read (lenient : Bool) : Scan Scanned := finish (stored lenient)

def readDirect : Scan Scanned := finish direct

def readColour : Scan Scanned := finish colour

def readColourAlpha : Scan Scanned := finish colourAlpha

def readColour8 : Scan Scanned := finish do Scan.lift ((← colour).rescale 8)

def readColourAlpha8 : Scan Scanned := finish do Scan.lift ((← colourAlpha).rescale 8)

def readReals (top : Value) : Scan ScannedReals := do
  let v ← direct
  let x ← Scan.lift top.toReal
  let ratio ← Scan.lift (View.factor x v.top)
  let lines ← v.lines
  return ⟨v.info, x, lines.map fun line => line.map fun n => ratio * n.toFloat⟩

end Reader

end Cartridge.Png
