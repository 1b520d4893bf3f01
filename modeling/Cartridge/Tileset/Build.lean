import Cartridge.Prebuilt
import Cartridge.Tileset
import Cartridge.Text.Numeral

/-!
# Building tilesets

Files of tiles to and from their stored form.
-/

namespace Cartridge.Tileset

/-- The last name of a path, a trailing slash and steps to the same folder not counting. -/
def lastName (path : String) : String :=
  (((Text.parts '/' path).filter fun n => n != "" && n != ".").getLast?).getD ""

/-- A name up to its last full stop, unless nothing or only that stop follows or precedes it. -/
def dropExtension (name : String) : String :=
  let cs := name.toList
  let ext := (cs.reverse.takeWhile (· != '.')).length
  let stop := cs.length - ext - 1
  if ext < cs.length ∧ 0 < stop ∧ 0 < ext then String.ofList (cs.take stop) else name

def cutAtStop (name : String) : String :=
  let cs := name.toList
  let ext := (cs.reverse.takeWhile (· != '.')).length
  if ext < cs.length then String.ofList (cs.take (cs.length - ext - 1)) else name

def nameOf (path : String) : String := cutAtStop (dropExtension (lastName path))

/-- Writes the stored form of the tiles in `input` to `output`. -/
def buildFile (output input : String) : Job Unit := do
  let stored ← Job.lift (encode (← Job.readFile input))
  Job.writeFile output stored

def build (output input prebuilt : String) : Job Ending :=
  Prebuilt.orBuild prebuilt (nameOf input ++ ".malias") output (buildFile output input)

inductive Conversion where
  | decode
  | encode
  | nothing
  deriving DecidableEq, Repr

def Conversion.ofInt (n : Int) : Conversion :=
  if n = 0 then .decode else if n = 1 then .encode else .nothing

/-- Converts a file; the output is emptied before the input is looked at. -/
def convertFile (conversion : Conversion) (input output : String) (offset : Int) : Job Unit := do
  discard (Job.readFile input)
  let key ← Job.create output
  let data ← Job.readFile input
  match conversion with
  | .decode =>
    require (0 ≤ offset) (.plain .position)
    match Tileset.decode data offset.toNat with
    | .ok d => Job.append key ⟨d.data⟩
    | .error e => throw e.fault
  | .encode => Job.append key (← Job.lift (Tileset.encode data))
  | .nothing => pure ()

end Cartridge.Tileset
