import Cartridge.Bytes
import Cartridge.Charset
import Cartridge.Prebuilt
import Cartridge.Tilemap.Pack

/-!
# Building maps

A map is written as text: a line with its mode in square brackets, then the rows, a cell as `\xHH`
and a row mark as a line end.  A map whose mode has one of its two low bits set is packed, any
other is stored cell by cell.
-/

namespace Cartridge.Tilemap

def rowCodes : Table String Int := Table.ofList [("\n", rowCell)]

def readMode (line : List Char) : Except Fault Int :=
  let bare := Text.trim (fun c => c == '[' || c == ']') (Text.trim Text.isBlank line)
  demand (Text.Numeral.read? 16 bare) (.plain .value)

def isPacked (mode : Int) : Bool := mode % 4 != 0

def encodeRows (mode : Int) (rows : List Char) : Job (List Int) := do
  if isPacked mode then
    let cells ← (Text.lines rows).mapM (Charset.encode rowCodes)
    pack (cells.flatten ++ [endCell])
  else
    return (← Charset.encode rowCodes rows) ++ [endCell]

def encodeText (text : List Char) : Job (List Int) := do
  let line := (Text.lines text).headD []
  let mode ← Job.lift (readMode line)
  return mode :: (← encodeRows mode (text.drop line.length))

def buildFile (output input : String) : Job Unit := do
  let map ← encodeText (← Job.readMarkedText input)
  let key ← Job.create output
  let bytes ← Job.lift (Bytes.ofInts map)
  Job.append key ⟨bytes.toArray⟩

def build (output input prebuilt : String) : Job Ending :=
  Prebuilt.orBuild prebuilt (Path.stem input ++ ".map") output (buildFile output input)

end Cartridge.Tilemap
