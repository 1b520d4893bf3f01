import Cartridge.Text.Numeral
import Cartridge.Workspace

/-!
# Palettes

A colour is a little-endian word with five bits for each of red, green and blue.  Palettes are
written as text, a line for each colour (`Palette.text`), and such lines are read back
(`Palette.readLines`).
-/

namespace Cartridge.Palette

structure Colour where
  red : Int
  green : Int
  blue : Int
  deriving DecidableEq, Repr

def ofWord (word : Int) : Colour := ⟨word % 32, word / 32 % 32, word / 1024 % 32⟩

def line (c : Colour) : String :=
  "\tRGB " ++ String.intercalate ", " ([c.red, c.green, c.blue].map (Text.Numeral.decimal 2)) ++ "\n"

/-- The words of palette bytes; a last single byte is left out. -/
def words : List UInt8 → List Int
  | lo :: hi :: rest => (hi.toNat * 0x100 + lo.toNat : Nat) :: words rest
  | _ => []

def text (bytes : List UInt8) : String := String.join ((words bytes).map fun w => line (ofWord w))

/-- The colour in a line, if the line names one. -/
def readLine (line : String) : Except Fault (Option Colour) :=
  match Text.parts ' ' line with
  | [] => .ok none
  | head :: rest =>
    if Text.strip head ≠ "RGB" then .ok none
    else do
      let values ← (Text.parts ',' (String.intercalate " " rest)).mapM fun v =>
        demand (m := Except Fault) (Text.readDecimal? v) (.plain .value)
      match values with
      | [r, g, b] => return some ⟨r, g, b⟩
      | _ => throw (.plain .value)

def readLines (lines : List String) : Except Fault (List Colour) :=
  List.filterMap id <$> lines.mapM readLine

def writeAsText (paths : List String) : Job Unit :=
  paths.forM fun path => do
    let bytes ← Job.readFile path
    Job.writeText path (text bytes.data.toList)

end Cartridge.Palette
