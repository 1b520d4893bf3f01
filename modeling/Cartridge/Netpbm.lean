import Cartridge.Png.Row
import Cartridge.Table

/-!
# Portable anymaps

The plain formats for images.  The older ones have a short header of numbers (`readShort`), the
newest one a header of named fields (`readFields`).  `Netpbm.encode` writes the format that fits
the number of channels.
-/

namespace Cartridge.Netpbm

structure Header where
  format : String
  width : Int
  height : Int
  depth : Int
  top : Int
  deriving DecidableEq, Repr

/-! ### Short headers -/

def isDigit (b : UInt8) : Bool := 48 ≤ b && b ≤ 57

def integerOf (bytes : List UInt8) : Except Fault Int :=
  demand (Text.Numeral.read? 10 (bytes.map fun b => Char.ofNat b.toNat)) (.plain .value)

def stopsEarly : Fault := Png.imageFault "premature EOF reading PNM header"

def number (bytes : List UInt8) : Except Fault (Int × List UInt8) :=
  match bytes.dropWhile Text.isBlankByte with
  | [] => .error stopsEarly
  | c :: rest =>
    if !isDigit c then
      .error (Png.imageFault ("unexpected character " ++ Text.quoteBytes [c] ++ " found in header"))
    else match (c :: rest).dropWhile isDigit with
      | [] => .error stopsEarly
      | tail => do
        let n ← integerOf ((c :: rest).takeWhile isDigit)
        return (n, tail)

def numbers : Nat → List UInt8 → Except Fault (List Int × List UInt8)
  | 0, bytes => .ok ([], bytes)
  | count + 1, bytes => do
    let (n, rest) ← number bytes
    let (ns, rest) ← numbers count rest
    return (n :: ns, rest)

/-- Reads the rest of a short header: the header and the pixels. -/
def readShort (format : List UInt8) (bytes : List UInt8) : Except Fault (Header × List UInt8) := do
  let bitmap := format == Png.tagOf "P1" || format == Png.tagOf "P4"
  let (ns, rest) ← numbers (if bitmap then 2 else 3) bytes
  match rest with
  | [] => throw stopsEarly
  | c :: pixels =>
    if !Text.isBlankByte c then
      throw (Png.imageFault ("expected header to end with whitespace, not " ++
        Text.quoteBytes [c]))
    let part (i : Nat) : Int := ns.getD i 1
    let name := String.ofList (format.map fun b => Char.ofNat b.toNat)
    return (⟨name, part 0, part 1, if name = "P6" then 3 else 1, part 2⟩, pixels)

/-! ### Headers of fields -/

def stripBytes (bytes : List UInt8) : List UInt8 :=
  ((bytes.dropWhile Text.isBlankByte).reverse.dropWhile Text.isBlankByte).reverse

/-- The fields up to the end of the header, and the pixels.  A field that comes again is added to
the one before. -/
def fields (found : Table (List UInt8) (List UInt8)) (bytes : List UInt8) :
    Except Fault (Table (List UInt8) (List UInt8) × List UInt8) :=
  let line := bytes.takeWhile (· != 10)
  let rest := bytes.drop (line.length + 1)
  let text := stripBytes line
  if text = Png.tagOf "ENDHDR" then .ok (found, rest)
  else if _h : text = [] then .error (.noted .endOfInput "PAM ended prematurely")
  else if _h : bytes = [] then .error (.noted .endOfInput "PAM ended prematurely")
  else
    let key := text.takeWhile (!Text.isBlankByte ·)
    match (text.drop key.length).dropWhile Text.isBlankByte with
    | [] => .error (.plain .index)
    | value =>
      let value := match found.find? key with
        | some before => before ++ [32] ++ value
        | none => value
      fields (found.insert key value) rest
termination_by bytes.length
decreasing_by
  have : 0 < bytes.length := List.length_pos_iff.mpr (by assumption)
  simp only [List.length_drop]
  omega

def readFields (bytes : List UInt8) : Except Fault (Header × List UInt8) := do
  let (found, pixels) ← fields ∅ bytes
  let needed := ["WIDTH", "HEIGHT", "DEPTH", "MAXVAL"].map fun n => found.find? (Png.tagOf n)
  match needed with
  | [some w, some h, some d, some t] =>
    let width ← integerOf w
    let height ← integerOf h
    let depth ← integerOf d
    let top ← integerOf t
    if width ≤ 0 ∨ height ≤ 0 ∨ depth ≤ 0 ∨ top ≤ 0 then
      throw (Png.imageFault "WIDTH, HEIGHT, DEPTH, MAXVAL must all be positive integers")
    return (⟨"P7", width, height, depth, top⟩, pixels)
  | _ => throw (Png.imageFault "PAM file must specify WIDTH, HEIGHT, DEPTH, and MAXVAL")

/-- Reads a header of one of the supported formats: the header and the pixels. -/
def readHeader (supported : List (List UInt8)) (bytes : List UInt8) :
    Except Fault (Header × List UInt8) := do
  let start := bytes.take 3
  let format := (start.reverse.dropWhile Text.isBlankByte).reverse
  if !supported.contains format then
    throw (.noted .unsupported ("file format " ++ Text.quoteBytes format ++ " not supported"))
  if format = Png.tagOf "P7" then readFields (bytes.drop 3) else readShort format (bytes.drop 3)

/-! ### Writing -/

def headerText (width height planes top : Int) : Except Fault String := do
  let short (format : String) : String :=
    format ++ " " ++ toString width ++ " " ++ toString height ++ " " ++ toString top ++ "\n"
  let long (kind : String) : String :=
    "P7\nWIDTH " ++ toString width ++ "\nHEIGHT " ++ toString height ++ "\nDEPTH " ++
      toString planes ++ "\nMAXVAL " ++ toString top ++ "\nTUPLTYPE " ++ kind ++ "\nENDHDR\n"
  if planes = 1 then return short "P5"
  else if planes = 3 then return short "P6"
  else if planes = 2 then return long "GRAYSCALE_ALPHA"
  else if planes = 4 then return long "RGB_ALPHA"
  else throw Fault.unmet

def topOf (depth : Int) : Int := Int.pow 2 depth.toNat - 1

def encodeRow (count top : Int) (row : List Value) : Except Fault (List UInt8) := do
  if row.length ≠ count then throw (.plain .field)
  return (← row.mapM (Png.fieldOf (if 0xFF < top then 2 else 1))).flatten

def encode (width height planes depth : Int) (rows : List (List Value)) :
    Except Fault (List UInt8) := do
  let head ← headerText width height planes (topOf depth)
  let body ← rows.mapM (encodeRow (planes * width) (topOf depth))
  return head.toUTF8.data.toList ++ body.flatten

end Cartridge.Netpbm
