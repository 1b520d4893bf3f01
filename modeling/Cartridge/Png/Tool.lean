import Cartridge.CommandLine
import Cartridge.Netpbm
import Cartridge.Png.View
import Cartridge.Png.Writer
import Cartridge.Workspace

/-!
# The conversion tool

A program that converts portable anymaps to image files or, on request, image files to portable
anymaps.  `Tool.run` is the program with an output that takes bytes or text, and `Tool.console` the
program on a console.
-/

namespace Cartridge.Png

/-- A colour in hexadecimal notation with one, two or four digits a component; other texts are no
colour. -/
def readColour (s : String) : Except Fault (Option (List Int)) :=
  let digits := match s.toList with
    | '#' :: ds => ds
    | _ => []
  if digits.length = 3 ∨ digits.length = 6 ∨ digits.length = 12 then
    some <$> (groups (digits.length / 3) digits).mapM fun ds =>
      demand (Text.Numeral.read? 16 ds) (.plain .value)
  else .ok none

namespace Tool

open CommandLine in
def switches : List Switch :=
  [⟨'r', "--read-png", .flag, "", "Read PNG, write PNM"⟩,
    ⟨'a', "--alpha", .text, "pgmfile", "alpha channel transparency (RGBA)"⟩,
    ⟨'i', "--interlace", .flag, "", "create an interlaced PNG file (Adam7)"⟩,
    ⟨'t', "--transparent", .text, "#RRGGBB", "mark the specified colour as transparent"⟩,
    ⟨'b', "--background", .text, "#RRGGBB", "save the specified background colour"⟩,
    ⟨'g', "--gamma", .real, "value", "save the specified gamma value"⟩,
    ⟨'c', "--compression", .integer, "level", "zlib compression level (0-9)"⟩]

def arguments : String := "[options] [imagefile]"

def version : String := "0.0.18"

inductive Output where
  | bytes
  | text
  deriving DecidableEq, Repr

def Output.check (o : Output) : Except Fault Unit := require (o = .bytes) (.plain .kind)

def textOf (p : CommandLine.Parsed) (name : String) : Option String :=
  match p.settings.find? name with
  | some (.text s) => some s
  | _ => none

def valueOf (p : CommandLine.Parsed) (name : String) : Value :=
  match p.settings.find? name with
  | some .on => .flag true
  | some (.text s) => .text s
  | some (.real x) => .real x
  | some (.integer n) => .int n
  | none => .none

def colourOf (p : CommandLine.Parsed) (name : String) : Except Fault Value :=
  match textOf p name with
  | none => .ok .none
  | some s => do
    match ← readColour s with
    | none => return .none
    | some ns => return .tuple (ns.map .int)

/-! ### Conversions -/

def toNetpbm (input : ByteArray) (output : Output) : Except Fault ByteArray :=
  let job : Scan (List UInt8) := do
    let v ← Reader.direct
    let i := v.info
    let top := Netpbm.topOf i.depth
    let head ← Scan.lift (Netpbm.headerText i.width i.height i.planes top)
    Scan.lift output.check
    let rows ← v.each fun ns => Netpbm.encodeRow (i.planes * i.width) top (ns.map fun (n : Nat) => .int n)
    return head.toUTF8.data.toList ++ rows.flatten
  (fun bytes => ⟨bytes.toArray⟩) <$> (job.run.run { data := input }).1

def supportedDepths : List Nat := (List.range 16).map (· + 1)

def depthOf (top : Int) : Except Fault Nat :=
  match supportedDepths.find? fun n => (Nat.pow 2 n - 1 : Nat) = top with
  | some n => .ok n
  | none => .error (.noted .unsupported ("your maxval (" ++ toString top ++
      ") not in supported list " ++
      Text.bracketed (supportedDepths.map fun n => toString (Nat.pow 2 n - 1))))

def writerFor (p : CommandLine.Parsed) (transparent background : Value) (h : Netpbm.Header) :
    Except Fault Writer := do
  let depth ← depthOf h.top
  let alpha := h.depth = 2 ∨ h.depth = 4
  Writer.ofOptions (.ofList [("width", .int h.width), ("height", .int h.height),
    ("greyscale", .flag (h.depth ≤ 2)), ("bitdepth", .int depth),
    ("interlace", .flag (p.settings.contains "--interlace")), ("transparent", transparent),
    ("background", background), ("alpha", .flag (alpha || (valueOf p "--alpha").isTrue)),
    ("gamma", valueOf p "--gamma"), ("compression", valueOf p "--compression")])

/-- From a portable anymap to an image file.  A second anymap with alpha values is opened, but its
format is never recognised. -/
def fromNetpbm (p : CommandLine.Parsed) (transparent background : Value) (input : List UInt8)
    (output : Output) : Job ByteArray := do
  let (h, pixels) ← Job.lift
    (Netpbm.readHeader [tagOf "P5", tagOf "P6", tagOf "P7"] input)
  let w ← Job.lift (writerFor p transparent background h)
  match (textOf p "--alpha").filter (!·.isEmpty) with
  | some path =>
    discard (Job.readFile path)
    throw (.plain .kind)
  | none =>
    if !w.interlaced then Job.lift output.check
    return (← Job.lift (w.writeRaw pixels)).bytes

/-- Does what the command line asks for; `input` is read if it names no file.  Text that is typed
in is never an image. -/
def convert (p : CommandLine.Parsed) (transparent background : Value) (input : ByteArray)
    (output : Output) : Job ByteArray := do
  let bytes ← match p.arguments with
    | path :: _ => Job.readFile path
    | [] => pure input
  if p.settings.contains "--read-png" then Job.lift (toNetpbm bytes output)
  else if p.arguments.isEmpty ∧ output = .text then
    throw (.noted .unsupported "file format  not supported")
  else fromNetpbm p transparent background bytes.data.toList output

/-! ### The program -/

structure Result where
  ending : Ending
  output : ByteArray := ByteArray.empty

def misuse (program text : String) : Job Result := do
  modify fun w =>
    { w with complaints := w.complaints ++ CommandLine.misuseText program arguments text }
  return { ending := .quit (some 2) }

def run (program : String) (words : List String) (input : ByteArray) (output : Output) :
    Job Result := do
  match CommandLine.parse switches words with
  | .error .help =>
    Job.put (CommandLine.helpText switches program arguments)
    return { ending := .quit (some 0) }
  | .error .version =>
    Job.say (program ++ " " ++ version)
    return { ending := .quit (some 0) }
  | .error (.misuse text) => misuse program text
  | .ok p =>
    let transparent ← Job.lift (colourOf p "--transparent")
    let background ← Job.lift (colourOf p "--background")
    if 1 < p.arguments.length then misuse program "more than one input file"
    else return ⟨.finished, ← convert p transparent background input output⟩

def isImageFault (f : Fault) : Bool :=
  f.cause == .image || f.cause == .imageFormat || f.cause == .imageChunk

/-- The program on a console for text; faults of images are reported and do not stop it. -/
def console (program : String) (words : List String) : Job Ending := do
  try
    return (← run program words ByteArray.empty .text).ending
  catch f =>
    if isImageFault f then
      Job.complain (f.note.getD "")
      return .finished
    else throw f

end Tool

end Cartridge.Png
